import IronArray.Expression.Elementwise

/-!
# How many operands an expression takes

A session with at most eight operands, or with at most `IARRAY_EXPR_OPERANDS_MAX` and the method
"iterchunk", stays inside its tables. One with more operands that comes to its first block indexes
`inputs_malloced` behind its end: `operandTables_iff`.
-/

namespace IronArray

open Grid CatArray

/-- At most eight operands, or at most as many as the table holds and the method that does not enter
the prefilter. -/
def FewOperands (e : Expression) (calls : List BindCall) : Prop :=
  calls.countP BindCall.isBind ≤ dimensionMax ∨
    calls.countP BindCall.isBind ≤ exprOperandsMax ∧ e.evalMethod = .iterchunk

instance (e : Expression) (calls : List BindCall) : Decidable (FewOperands e calls) :=
  inferInstanceAs (Decidable (_ ∨ _))

/-- A bound expression comes to the first block of its output: it compiles, the output can be made
and every operand can be read. -/
structure ReachesBlocks (E : Backend) (jug : Jug) (e : Expression) (source : ExprSource) : Prop where
  compiles : ∃ e', (compileSource jug e source).outcome = .ok e'
  output : ∃ ret, iarrayEmpty E e.outDtshape e.outStoreProperties = .ok ret
  operands : ∀ v ∈ e.vars, ¬ v.2.Unreadable

/-! ## Sessions that stay inside their tables -/

section Kept

variable {E : Backend} {S : Surroundings} {jug : Jug} {e : Expression} {calls : List BindCall}
  {source : ExprSource}

theorem keepsCapacity_of_inTable (hBounded : e.Bounded)
    (hRoom : e.vars.length + calls.countP BindCall.isBind ≤ exprOperandsMax)
    (h : ∀ a ∈ (exprSession E S jug e calls source).log, a.InTable) :
    KeepsCapacity E S jug e calls source where
  full _ _ _ _ hCalls hPre hFull := full_of_room hBounded hRoom hCalls hPre hFull
  indexed _ _ hMem := h _ hMem

/-- One operand more than there is room for is written behind the table. -/
theorem KeepsCapacity.room (hBounded : e.Bounded) (hNew : e.vars = [])
    (h : KeepsCapacity E S jug e calls source) :
    calls.countP BindCall.isBind ≤ exprOperandsMax := by
  by_contra hMany
  obtain ⟨pre, var, val, post, hCalls, hPre⟩ := exists_full (Nat.lt_of_not_le hMany)
  have hNone : e.vars.length = 0 := List.length_eq_zero_iff.mpr hNew
  obtain ⟨-, e', hOk, -, hLen⟩ := @bindAll_ok e pre hBounded (by omega)
  have hFull : exprOperandsMax ≤ e'.vars.length := by omega
  obtain ⟨⟨_, hRefused⟩, -⟩ := h.full pre (.bind var val) post e' hCalls hOk hFull
  have hIndex : (Table.vars.index e'.vars.length).outcome = crash .outOfBounds :=
    if_neg (Nat.not_lt.mpr hFull)
  rw [BindCall.run, iarrayExprBind, Logged.bind_of_error hIndex] at hRefused
  cases hRefused

/-- A bound expression has as many operands as were bound, and room for them. -/
theorem bindAll_room {e₁ : Expression} (hBounded : e.Bounded) (hNew : e.vars = [])
    (hBind : (bindAll e calls).outcome = .ok e₁) :
    e₁.vars.length = calls.countP BindCall.isBind ∧
      calls.countP BindCall.isBind ≤ exprOperandsMax := by
  have hNone : e.vars.length = 0 := List.length_eq_zero_iff.mpr hNew
  by_cases hRoom : calls.countP BindCall.isBind ≤ exprOperandsMax
  · obtain ⟨-, e', hOk, -, hLen⟩ := @bindAll_ok e calls hBounded (by omega)
    cases hOk.symm.trans hBind
    exact ⟨by omega, hRoom⟩
  · obtain ⟨pre, var, val, post, rfl, hPre⟩ := exists_full (Nat.lt_of_not_le hRoom)
    obtain ⟨-, e', hOk, -, hLen⟩ := @bindAll_ok e pre hBounded (by omega)
    have hFull : exprOperandsMax ≤ e'.vars.length := by omega
    have hIndex : (Table.vars.index e'.vars.length).outcome = crash .outOfBounds :=
      if_neg (Nat.not_lt.mpr hFull)
    have hCall : (callOn e' (.bind var val)).outcome = crash .outOfBounds := by
      rw [callOn, BindCall.run, iarrayExprBind, Logged.bind_of_error hIndex]
      rfl
    rw [bindAll, List.foldlM_append] at hBind
    obtain ⟨e'', hPre', hRest⟩ := Logged.bind_eq_ok.mp hBind
    obtain rfl := Except.ok.inj (hOk.symm.trans hPre')
    rw [List.foldlM_cons] at hRest
    obtain ⟨_, hBad, -⟩ := Logged.bind_eq_ok.mp hRest
    cases hCall.symm.trans hBad

end Kept

/-! ## The first block -/

section First

variable {E : Backend} {S : Surroundings} {e : Expression} {ret : Container}
  {As : List (NdArray Cell)}

/-- The first eight operands of a block can be read. -/
theorem Supplied.eight_ok (m : Machine) {p : ExprPparams} {k nblock : Nat} (h : Supplied p As k)
    (hb : nblock < (p.out.catarr.axes.map Axis.blocks).prod) :
    ∃ ps, ((p.inputs.take dimensionMax).zipIdx.mapM (prefilterInput p nblock)).outcome = .ok ps := by
  have hBound : 0 + (p.inputs.take dimensionMax).length ≤ dimensionMax := by
    rw [Nat.zero_add]
    exact List.length_take_le _ _
  obtain ⟨ps, hOk, -⟩ := Logged.mapM_zipIdx_ok (f := prefilterInput p nblock)
    (R := fun x A => x.2.Supplies p.out x.1 A k) (Q := fun _ _ => True) hBound
    (fun x A i hx hi => by
      obtain ⟨q, hq, -⟩ := prefilterInput_ok (m := m) h.out h.chunk hb hi hx
      exact ⟨q, hq, trivial⟩) (List.forall₂_take _ h.inputs)
  exact ⟨ps, hOk⟩

theorem evalLoop_mem (hE : E.Lawful) (hOut : Writable ret) {external : Bool} {σ : Type}
    {body : IterWriteBlock → σ → Eval (IterWriteBlock × σ)} {itr : IterWriteBlock} {s : σ}
    (h : Placed ret external itr) (hk : itr.nblock < ret.catarr.nchunks) {a : Access}
    (ha : a ∈ (body itr s).log) (rounds : Nat) :
    a ∈ (evalLoop E body (rounds + 1) itr s).log := by
  rcases h.writeMore_ok hE hOut with ⟨hEnd, -⟩ | ⟨-, hMore⟩
  · omega
  · rw [evalLoop]
    exact Logged.mem_bind_right hMore (Logged.mem_bind_left ha _)

/-- A block of a round with a ninth operand. -/
theorem iterbloscRound_ninth {F : List Nat → Cell} {itr : IterWriteBlock} {s : BloscState}
    (hE : E.Lawful) (hS : S.ViewsCompressed) (hRet : Writable ret) (hRank : ret.catarr.axes ≠ [])
    (hParams : e.userParams.length ≤ exprUserParamsMax) (hMany : dimensionMax < As.length)
    (hRoom : As.length ≤ exprOperandsMax) (h : BloscEvaluated S ret As F itr s)
    (hk : itr.nblock < ret.catarr.nchunks) :
    Access.table .inputsMalloced dimensionMax ∈ (iterbloscRound E S e ret itr s).log := by
  obtain ⟨itr₁, value, fetched, hNext, hFetched, -, -, -, hSupplied, -, hReady⟩ :=
    iterbloscRound_supplied (T := fun _ => True) hE hS hRet hRank trivial hParams hRoom h
      (fun _ _ => trivial) hk
  have hLen : (fetched.map fun x => (x.1.var, x.2)).length = As.length := by
    rw [List.length_map, hReady.length_eq]
  have hBlocks : 0 < (ret.catarr.axes.map Axis.blocks).prod := (nchunks_pos hRet.pos).2
  have hCount : (ret.catarr.axes.map Axis.extchunkshape).prod / ret.catarr.blockshape.prod =
      (ret.catarr.axes.map Axis.blocks).prod := prod_extchunkshape hRet.pos
  obtain ⟨ps, hEight⟩ := hSupplied.eight_ok E.machine hBlocks
  have hNinth := ninth_indexed E (hMany.trans_eq hLen.symm) (hLen.trans_le hRoom)
    (hSupplied.window_ok hBlocks) hEight
  refine Logged.mem_bind_right hNext ?_
  refine Logged.mem_bind_right hFetched ?_
  refine Logged.mem_bind_left ?_ _
  -- the first block is the first one that the prefilter is called for
  obtain ⟨n, hn⟩ := Nat.exists_eq_succ_of_ne_zero hBlocks.ne'
  show _ ∈ ((List.range ((ret.catarr.axes.map Axis.extchunkshape).prod /
    ret.catarr.blockshape.prod)).mapM (prefilterFunc E _)).log
  rw [hCount, hn, List.range_succ_eq_map, List.mapM_cons]
  exact Logged.mem_bind_left hNinth _

/-- An evaluation with a ninth operand that can read its operands. -/
theorem iterblosc_ninth (hE : E.Lawful) (hS : S.ViewsCompressed) (hRet : Writable ret)
    (hRank : ret.catarr.axes ≠ []) (hBounded : e.Bounded) (hMany : dimensionMax < e.vars.length)
    (hVars : List.Forall₂ (fun v A => Matching ret v.2 A ∧
      v.2.Readable ret.catarr.chunkshape) e.vars As) :
    Access.table .inputsMalloced dimensionMax ∈
      (iarrayEvalIterblosc E S e ret ret.storage.chunkshape).log := by
  obtain ⟨operands, hOperands, hReady, -⟩ := setUpOperands_ok (E := E) (S := S) hRet
    (P := fun c => c.Readable ret.catarr.chunkshape) hVars
  obtain ⟨iterOut, hIterOut, hFirst, -, hPlaced⟩ := placed_new (E := E) hRet hRank true
  have hk : iterOut.nblock < ret.catarr.nchunks := hFirst.trans_lt (nchunks_pos hRet.pos).1
  have hStart : BloscEvaluated S ret As (fun _ => .bits 0) iterOut (0, operands) :=
    { toPlaced := hPlaced
      shown := fun x _ hChunk => absurd hChunk (hFirst ▸ Nat.not_lt_zero _)
      nchunk := hFirst.symm
      operands := by
        rw [hFirst]
        exact hReady }
  have hRound := iterbloscRound_ninth (e := e) hE hS hRet hRank hBounded.userParams
    (hMany.trans_eq hVars.length_eq) (hVars.length_eq.symm.trans_le hBounded.vars) hStart hk
  have hLoop := evalLoop_mem hE hRet hPlaced hk hRound (iterOut.totalBlocks - 1)
  rw [Nat.sub_add_cancel (hPlaced.total.symm ▸ (nchunks_pos hRet.pos).1)] at hLoop
  refine Logged.mem_bind_right (Table.each_ok hBounded.vars) ?_
  refine Logged.mem_bind_right (Table.each_ok hBounded.vars) ?_
  refine Logged.mem_bind_right (Table.each_ok hBounded.vars) ?_
  refine Logged.mem_bind_right hOperands ?_
  refine Logged.mem_bind_right hIterOut ?_
  exact Logged.mem_bind_left hLoop _

/-- An evaluation with an operand that cannot be read ends before its first block. -/
theorem iterblosc_inTable_of_unreadable (hE : E.Lawful) (hS : S.ViewsCompressed)
    (hRet : Writable ret) (hRank : ret.catarr.axes ≠ []) (hBounded : e.Bounded)
    (hVars : List.Forall₂ (fun v A => Matching ret v.2 A ∧
      (v.2.Readable ret.catarr.chunkshape ∨ v.2.Unreadable)) e.vars As)
    (hSome : ∃ v ∈ e.vars, v.2.Unreadable) :
    ∀ a ∈ (iarrayEvalIterblosc E S e ret ret.storage.chunkshape).log, a.InTable := by
  have hSteps := inTable_stepwise
  obtain ⟨operands, hOperands, hReady, hAll⟩ := setUpOperands_ok (E := E) (S := S) hRet
    (P := fun c => c.Readable ret.catarr.chunkshape ∨ c.Unreadable) hVars
  obtain ⟨iterOut, hIterOut, hFirst, -, hPlaced⟩ := placed_new (E := E) hRet hRank true
  have hk : iterOut.nblock < ret.catarr.nchunks := hFirst.trans_lt (nchunks_pos hRet.pos).1
  have hLen : operands.length ≤ exprOperandsMax :=
    hReady.length_eq.trans_le (hVars.length_eq.symm.trans_le hBounded.vars)
  have hBad : ∃ o ∈ operands, o.var.Unreadable := by
    obtain ⟨v, hv, hBad⟩ := hSome
    obtain ⟨o, ho, hEq⟩ := hAll v hv
    exact ⟨o, ho, hEq ▸ hBad⟩
  have hReady : List.Forall₂ (fun o A => o.Ready S ret iterOut.nblock A ∧
      (o.var.Readable ret.catarr.chunkshape ∨ o.var.Unreadable)) operands As := by
    rw [hFirst]
    exact hReady
  have hFetched := fetchInputs_refused (s := (0, operands)) hE hS hRet hLen hFirst.symm hReady hBad hk
  have hRound := iterbloscRound_refused (e := e) (s := (0, operands)) hE hS hRet hRank hLen hPlaced
    hFirst.symm hReady hBad hk
  have hLog : ∀ a ∈ (iterbloscRound E S e ret iterOut (0, operands)).log, a.InTable := by
    refine hSteps.bind hSteps.nil fun _ _ => ?_
    refine hSteps.bind (hSteps.mapM fun x hx => fetchInput_inTable (zipIdx_lt hLen hx))
      fun fetched hOk => ?_
    cases hFetched.symm.trans hOk
  refine hSteps.bind (Table.each_inTable hBounded.vars) fun _ _ => ?_
  refine hSteps.bind (Table.each_inTable hBounded.vars) fun _ _ => ?_
  refine hSteps.bind (Table.each_inTable hBounded.vars) fun _ _ => ?_
  refine hSteps.bind hSteps.nil fun operands' hOk => ?_
  obtain rfl := Except.ok.inj (hOperands.symm.trans hOk)
  refine hSteps.bind hSteps.nil fun iterOut' hOk => ?_
  obtain rfl := Except.ok.inj (hIterOut.symm.trans hOk)
  refine hSteps.bind (evalLoop_stepwise hSteps (I := fun itr s => itr = iterOut ∧ s = (0, operands))
    ?_ ?_ _ ⟨rfl, rfl⟩) fun _ _ => hSteps.nil
  · rintro itr s ⟨rfl, rfl⟩
    exact hLog
  · rintro itr s itr' s' ⟨rfl, rfl⟩ hOk
    cases hRound.symm.trans hOk

end First

/-! ## Sessions -/

theorem not_iterchunk {jug : Jug} {e e' : Expression} {source : ExprSource}
    (hCompile : (compileSource jug e source).outcome = .ok e') (h : e.evalMethod ≠ .iterchunk) :
    e'.evalMethod = .iterblosc := by
  rw [compile_method hCompile]
  split
  next => rfl
  next hSome =>
    cases hMethod : e.evalMethod with
    | auto => exact absurd hMethod hSome
    | iterblosc => rfl
    | iterchunk => exact absurd hMethod h

section Session

variable {E : Backend} {S : Surroundings} {jug : Jug} {e e₁ : Expression} {calls : List BindCall}
  {source : ExprSource}

/-- An operand of the expression keeps its shape and size while the expression is compiled. -/
theorem OperandsOf.compiled {e₂ : Expression} {As : List (NdArray Cell)}
    (h : OperandsOf E e₁ As) (hCompile : (compileSource jug e₁ source).outcome = .ok e₂) :
    OperandsOf E e₂ As := by
  rw [OperandsOf, (compile_tables hCompile).1, (compile_outProperties hCompile).1]
  exact h

/-- A session that does not come to its first block stays inside its tables. -/
theorem session_inTable_of_unreached (hE : E.Lawful) (hLimits : E.Bounded) (hS : S.ViewsCompressed)
    {As : List (NdArray Cell)} (hBind : (bindAll e calls).outcome = .ok e₁)
    (hLog : ∀ a ∈ (bindAll e calls).log, a.InTable) (hBounded : e₁.Bounded)
    (hOperands : OperandsOf E e₁ As) (hRank : e₁.outDtshape.ndim ≠ 0)
    (hPos : ∀ n ∈ e₁.outDtshape.shape, 0 < n)
    (hShort : ∀ n ∈ e₁.outStoreProperties.chunkshape, n < 2 ^ 31)
    (h : ¬ ReachesBlocks E jug e₁ source) :
    ∀ a ∈ (exprSession E S jug e calls source).log, a.InTable := by
  have hSteps := inTable_stepwise
  refine hSteps.bind hLog fun e' he' => ?_
  obtain rfl := Except.ok.inj (hBind.symm.trans he')
  refine hSteps.bind (compile_inTable hBounded) fun e₂ hCompile => ?_
  obtain ⟨hVars, hParams⟩ := compile_tables hCompile
  obtain ⟨hDtshape, hStore⟩ := compile_outProperties hCompile
  have hBounded₂ : e₂.Bounded := ⟨hVars ▸ hBounded.vars, hParams ▸ hBounded.userParams⟩
  refine hSteps.bind hSteps.nil fun ret hEmpty => ?_
  have hSome : ∃ v ∈ e₂.vars, v.2.Unreadable := by
    by_contra hAll
    refine h ⟨⟨e₂, hCompile⟩, ⟨ret, ?_⟩, fun v hv hBad => hAll ⟨v, hVars ▸ hv, hBad⟩⟩
    rw [← hDtshape, ← hStore]
    exact hEmpty
  obtain ⟨hRet, hAxes⟩ := filled_of_empty hE hEmpty (by rwa [hDtshape]) (by rwa [hDtshape])
    (by rwa [hStore])
  split
  · exact iterchunk_inTable hBounded₂.vars
  · exact iterblosc_inTable_of_unreadable hE hS hRet hAxes hBounded₂
      ((hOperands.compiled hCompile).matching hE hLimits hEmpty (by rwa [hDtshape])) hSome
  · exact hSteps.nil

/-- A session with a ninth operand that comes to its first block. -/
theorem session_ninth (hE : E.Lawful) (hLimits : E.Bounded) (hS : S.ViewsCompressed)
    {As : List (NdArray Cell)} (hBind : (bindAll e calls).outcome = .ok e₁) (hBounded : e₁.Bounded)
    (hOperands : OperandsOf E e₁ As) (hRank : e₁.outDtshape.ndim ≠ 0)
    (hPos : ∀ n ∈ e₁.outDtshape.shape, 0 < n)
    (hShort : ∀ n ∈ e₁.outStoreProperties.chunkshape, n < 2 ^ 31)
    (hMany : dimensionMax < e₁.vars.length) (hMethod : e₁.evalMethod ≠ .iterchunk)
    (h : ReachesBlocks E jug e₁ source) :
    Access.table .inputsMalloced dimensionMax ∈ (exprSession E S jug e calls source).log := by
  obtain ⟨⟨e₂, hCompile⟩, ⟨ret, hEmpty⟩, hAll⟩ := h
  obtain ⟨hVars, hParams⟩ := compile_tables hCompile
  obtain ⟨hDtshape, hStore⟩ := compile_outProperties hCompile
  have hBounded₂ : e₂.Bounded := ⟨hVars ▸ hBounded.vars, hParams ▸ hBounded.userParams⟩
  rw [← hDtshape, ← hStore] at hEmpty
  obtain ⟨hRet, hAxes⟩ := filled_of_empty hE hEmpty (by rwa [hDtshape]) (by rwa [hDtshape])
    (by rwa [hStore])
  have hMatching := (hOperands.compiled hCompile).matching hE hLimits hEmpty (by rwa [hDtshape])
  have hReadable : List.Forall₂ (fun v A => Matching ret v.2 A ∧
      v.2.Readable ret.catarr.chunkshape) e₂.vars As := by
    refine List.forall₂_iff_zip.mpr ⟨hMatching.length_eq, fun {v A} hMem => ?_⟩
    obtain ⟨hMatch, hEach⟩ := (List.forall₂_iff_zip.mp hMatching).2 hMem
    exact ⟨hMatch, hEach.resolve_right (hAll v (hVars ▸ (List.of_mem_zip hMem).1))⟩
  refine Logged.mem_bind_right hBind ?_
  refine Logged.mem_bind_right hCompile ?_
  refine Logged.mem_bind_right hEmpty ?_
  rw [not_iterchunk hCompile hMethod]
  exact iterblosc_ninth hE hS hRet hAxes hBounded₂ (hVars ▸ hMany) hReadable

end Session

/-- With at most eight operands, or with at most as many as the table holds and the method
"iterchunk", nothing is indexed behind the end of a table and calls on a full table are refused. With
more operands than the table holds one of them is written behind it. A session with operands of the
shape and item size of its output stays inside its tables only so, or when it ends before the first
block of its output. -/
theorem operandTables_iff {E : Backend} (hE : E.Lawful) (hLimits : E.Bounded) {S : Surroundings}
    (hS : S.ViewsCompressed) (jug : Jug) {method : EvalMethod} {dataType : Dtype} {dtshape : Dtshape}
    {store : Storage} {e : Expression} (hNew : iarrayExprNew method dataType dtshape store = .ok e)
    (calls : List BindCall) (source : ExprSource) :
    (FewOperands e calls → KeepsCapacity E S jug e calls source) ∧
    (KeepsCapacity E S jug e calls source →
      calls.countP BindCall.isBind ≤ exprOperandsMax) ∧
    ∀ e₁ As, (bindAll e calls).outcome = .ok e₁ → OperandsOf E e₁ As → dtshape.ndim ≠ 0 →
      (∀ n ∈ dtshape.shape, 0 < n) → (∀ n ∈ store.chunkshape, n < 2 ^ 31) →
      (KeepsCapacity E S jug e calls source ↔
        FewOperands e calls ∨ ¬ ReachesBlocks E jug e₁ source) := by
  have hBounded := bounded_of_new hNew
  obtain ⟨hNone, -⟩ := exprNew_empty hNew
  have hZero : e.vars.length = 0 := List.length_eq_zero_iff.mpr hNone
  have hFew : FewOperands e calls → KeepsCapacity E S jug e calls source := by
    intro hFew
    have hRoom : calls.countP BindCall.isBind ≤ exprOperandsMax :=
      hFew.elim (fun h => h.trans (by decide)) And.left
    refine keepsCapacity_of_inTable hBounded (by omega) (session_inTable hBounded (by omega) ?_)
    exact hFew.imp (fun h => by omega) And.right
  refine ⟨hFew, fun h => h.room hBounded hNone, ?_⟩
  intro e₁ As hBind hOperands hRank hPos hShort
  obtain ⟨hLen, hRoom⟩ := bindAll_room hBounded hNone hBind
  obtain ⟨hLog, -⟩ := @bindAll_ok e calls hBounded (by omega)
  obtain ⟨hMethod, hDtshape, hStore⟩ := bindAll_outProperties hBind
  have hOut : e.outDtshape = dtshape ∧ e.outStoreProperties = store := by
    obtain ⟨_, _, hNew⟩ := Result.bind_eq_ok.mp hNew
    cases hNew
    exact ⟨rfl, rfl⟩
  rw [hOut.1] at hDtshape
  rw [hOut.2] at hStore
  subst hDtshape hStore
  have hBounded₁ := bindAll_bounded hBounded hBind
  constructor
  · intro hKeeps
    by_contra hNot
    obtain ⟨hMany, hReaches⟩ := not_or.mp hNot
    obtain ⟨hEight, hOther⟩ := not_or.mp hMany
    have hNinth := session_ninth (S := S) hE hLimits hS hBind hBounded₁ hOperands hRank hPos hShort
      (by omega) (fun h => hOther ⟨hRoom, hMethod ▸ h⟩) (not_not.mp hReaches)
    exact absurd (hKeeps.indexed _ _ hNinth) (Nat.lt_irrefl _)
  · rintro (h | h)
    · exact hFew h
    · exact keepsCapacity_of_inTable hBounded (by omega) (session_inTable_of_unreached hE hLimits hS
        hBind hLog hBounded₁ hOperands hRank hPos hShort h)

open TableExample ElementwiseExample in
/-- Eight operands are all right, the ninth is one too many. -/
theorem operandTables_eight :
    KeepsCapacity Reference.bounded surroundings TableExample.jug (TableExample.expression .auto)
      (List.replicate 8 (.bind "x" TableExample.operand)) (.expr "x") ∧
    ¬ KeepsCapacity Reference.bounded surroundings TableExample.jug (TableExample.expression .auto)
      (List.replicate 9 (.bind "x" TableExample.operand)) (.expr "x") := by
  have hNew : iarrayExprNew .auto .int64 ⟨.int64, [1]⟩ ⟨[1], [1]⟩ =
      .ok (TableExample.expression .auto) := rfl
  have hSame : ∀ n, List.Forall₂ (fun v A => Bindable Reference.bounded v.2 A ∧ A.shape = [1] ∧
      v.2.dtshape.dtypeSize = 8) (List.replicate n ("x", TableExample.operand))
      (List.replicate n TableExample.operand.contents) := by
    intro n
    induction n with
    | zero => exact .nil
    | succ n ih => exact .cons ⟨bindable_plain (by decide) (by decide), rfl, rfl⟩ ih
  constructor
  · exact (operandTables_iff Reference.bounded_lawful Reference.bounded_bounded (fun _ _ _ => rfl) _
      hNew _ _).1 (by decide)
  · intro hKeeps
    have hIff := (operandTables_iff Reference.bounded_lawful Reference.bounded_bounded
      (S := surroundings) (fun _ _ _ => rfl) TableExample.jug hNew
      (List.replicate 9 (.bind "x" TableExample.operand)) (.expr "x")).2.2 _ _ rfl (hSame 9)
      (by decide)
      (by decide) (by decide)
    rcases hIff.mp hKeeps with hFew | hNot
    · exact absurd hFew (by decide)
    · exact hNot ⟨⟨_, rfl⟩, ⟨_, rfl⟩, by decide⟩

open TableExample in
/-- A ninth operand is accepted and the block indexes `inputs_malloced` behind its end. Binding one
operand more than there is room for writes behind the table, while a parameter is refused. -/
theorem operandTables_fails :
    ¬ KeepsCapacity Reference.backend surroundings TableExample.jug (TableExample.expression .auto)
      (List.replicate 9 (.bind "x" TableExample.operand)) (.expr "x") ∧
    ∀ e : Expression, e.vars.length = exprOperandsMax → e.userParams.length = exprUserParamsMax →
      (iarrayExprBind e "x" TableExample.operand).outcome = crash .outOfBounds ∧
        (iarrayExprBindParam e (.bits 0)).outcome = inaError .full := by
  constructor
  · intro hKeeps
    have hOver : overruns (TableExample.session .auto 9).log = true := by
      decide +kernel
    obtain ⟨a, ha, hOut⟩ := List.any_eq_true.mp hOver
    cases a with
    | table t i => exact Nat.not_lt.mpr (of_decide_eq_true hOut) (hKeeps.indexed t i ha)
    | region c start stop => cases hOut
    | chunk c nchunk start nbytes => cases hOut
    | buffer size nbytes => cases hOut
  · intro e hVars hParams
    have hIndex : (Table.vars.index e.vars.length).outcome = crash .outOfBounds :=
      if_neg (Nat.not_lt.mpr hVars.ge)
    refine ⟨?_, bindParam_refused hParams.ge⟩
    rw [iarrayExprBind, Logged.bind_of_error hIndex]
    rfl

end IronArray
