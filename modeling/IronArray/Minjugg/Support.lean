import IronArray.Minjugg.Grammar
import IronArray.Minjugg.Loop

/-!
# Which expressions compile

Every operation and function exists for floating-point numbers. For integers there are the operations
only, and for signed ones the absolute value, the minimum and the maximum. An accepted expression
compiles and links exactly if what it uses exists for its type and its constants fit:
`jugExpressionCompile_iff`.
-/

namespace IronArray

open Ssa Llvm

/-! ## Trees that compile -/

namespace ExprType

/-- The operations. -/
def IsOperation (f : ExprType) : Prop :=
  f = add ∨ f = sub ∨ f = mul ∨ f = divide ∨ f = negate

/-- Operations and functions that exist for a type. -/
def Available (d : Dtype) (f : ExprType) : Prop :=
  f.realArity.isSome ∧ (d.isFloating ∨ f.IsOperation ∨ d.isSigned ∧ f.OnInts)

instance (f : ExprType) : Decidable f.IsOperation := inferInstanceAs (Decidable (_ ∨ _))

instance (d : Dtype) (f : ExprType) : Decidable (f.Available d) :=
  inferInstanceAs (Decidable (_ ∧ _))

end ExprType

namespace TeExpr

variable (A : Arithmetic) (d : Dtype)

mutual

/-- The constants of a tree fit into the type, and what it uses exists for the type. -/
def Fits : TeExpr → Prop
  | teNone => True
  | teConstant value => (constant A d value).isSome
  | teVariable _ => True
  | teFunction f ps => f.Available d ∧ AllFit ps
  | teCustom _ ps => AllFit ps

def AllFit : List TeExpr → Prop
  | [] => True
  | t :: ts => Fits t ∧ AllFit ts

end

mutual

/-- The operands of a tree are bound, and its nodes have as many parameters as their functions
take. -/
def Formed (vars : List String) : TeExpr → Prop
  | teNone => False
  | teConstant _ => True
  | teVariable bound => bound ∈ vars
  | teFunction f ps => f.realArity.getD 2 = ps.length ∧ AllFormed vars ps
  | teCustom udf ps => ps.length = udf.numArgs ∧ AllFormed vars ps

def AllFormed (vars : List String) : List TeExpr → Prop
  | [] => True
  | t :: ts => Formed vars t ∧ AllFormed vars ts

end

end TeExpr

/-- An operation that can be linked. -/
def Linkable (d : Dtype) (op : Op) : Prop :=
  ∀ name, op = .call name → ∃ f, librarySymbol name = some (d, f)

theorem linkable_plain {d : Dtype} {op : Op} (h : ∀ name, op ≠ .call name) : Linkable d op :=
  fun name hName => absurd hName (h name)

section Function

variable {A : Arithmetic} {d : Dtype} {n : Nat} {f : ExprType} {args : List LlvmValue}

theorem realArity_of_entry {e : FunType} (hEntry : functionMap[f.ctorIdx]? = some e)
    (hNyi : e.nyi = true) : f.realArity = none := by
  cases f
  case custom => cases hEntry
  case comma => rfl
  all_goals
    cases hEntry
    cases hNyi

theorem realArity_of_none (hEntry : functionMap[f.ctorIdx]? = none) : f.realArity = none := by
  cases f
  case custom => rfl
  all_goals cases hEntry

theorem isOperation_entry {e : FunType} (hEntry : functionMap[f.ctorIdx]? = some e)
    (hNyi : e.nyi = false) : f.IsOperation ↔ e.requireDecl = false := by
  cases f
  case custom => cases hEntry
  case comma =>
    cases hEntry
    cases hNyi
  all_goals
    cases hEntry
    decide

theorem not_available (h : f.realArity = none) : ¬ f.Available d := fun hBoth => by
  rw [ExprType.Available, h] at hBoth
  exact Bool.false_ne_true hBoth.1

/-- The functions that an entry declares are there exactly if the function exists for the type. -/
theorem linkable_call {e : FunType} (h : Called f e) {name : String}
    (hName : e.declName d = some name) :
    Linkable d (.call name) ↔ f.Available d := by
  have hSome : f.realArity.isSome := by
    rw [realArity_entry h.entry h.nyi]
    rfl
  have hOperation : ¬ f.IsOperation := by
    rw [isOperation_entry h.entry h.nyi, h.decl]
    decide
  have hCall : Linkable d (.call name) ↔ ∃ f', librarySymbol name = some (d, f') :=
    ⟨fun hAll => hAll name rfl, fun hSome name' hEq => by cases hEq; exact hSome⟩
  rw [hCall]
  by_cases hReal : d.isFloating
  · exact iff_of_true ⟨f, librarySymbol_real h hReal hName⟩ ⟨hSome, .inl hReal⟩
  · have hReal' : d.isFloating = false := by simpa using hReal
    by_cases hInts : f.OnInts
    · rw [librarySymbol_ints h hInts hReal' hName]
      by_cases hSigned : d.isSigned
      · exact iff_of_true ⟨f, if_pos hSigned⟩ ⟨hSome, .inr (.inr ⟨hSigned, hInts⟩)⟩
      · rw [if_neg hSigned]
        refine iff_of_false (fun ⟨_, hNone⟩ => by cases hNone) ?_
        rintro ⟨-, hCase | hCase | hCase⟩
        · exact hReal hCase
        · exact hOperation hCase
        · exact hSigned hCase.1
    · rw [librarySymbol_bare h hInts hReal' hName]
      refine iff_of_false (fun ⟨_, hNone⟩ => by cases hNone) ?_
      rintro ⟨-, hCase | hCase | hCase⟩
      · exact hReal hCase
      · exact hOperation hCase
      · exact hInts hCase.2

theorem declName_isSome (e : FunType) (hd : d ≠ .bool) : ∃ name, e.declName d = some name := by
  cases d with
  | bool => exact absurd rfl hd
  | _ => exact ⟨_, rfl⟩

theorem funRef_isSome {e : FunType} (hEntry : functionMap[f.ctorIdx]? = some e)
    (hDecl : e.requireDecl = false) (hd : d ≠ .bool) : ∃ op, e.funRef d = some op := by
  cases f
  case add | sub | mul | divide | negate =>
    cases hEntry
    cases d with
    | bool => exact absurd rfl hd
    | _ => exact ⟨_, rfl⟩
  all_goals cases hEntry <;> cases hDecl

theorem linkable_funRef {e : FunType} (hEntry : functionMap[f.ctorIdx]? = some e) {op : Op}
    (hRef : e.funRef d = some op) : Linkable d op := by
  rintro name rfl
  cases f
  case add | sub | mul | divide | negate =>
    cases hEntry
    cases d <;> cases hRef
  all_goals
    cases hEntry
    try cases d <;> cases hRef

/-- The code for a function can be linked exactly if the function exists for the type. -/
theorem teFun_builds (hd : d ≠ .bool) : (teFun d f args).Builds (Linkable d) n ↔
    f.Available d ∧ f.realArity = some args.length := by
  unfold teFun
  cases hEntry : functionMap[f.ctorIdx]? with
  | none =>
    rw [Gen.ofOption_none_bind]
    exact iff_of_false Gen.not_builds_fail fun h => not_available (realArity_of_none hEntry) h.1
  | some e =>
    rw [Gen.ofOption_some_bind, jugBuildFunCall, functionMap_find, hEntry, Gen.ofOption_some_bind]
    cases hNyi : e.nyi with
    | true =>
      refine iff_of_false (fun h => ?_) fun h => not_available (realArity_of_entry hEntry hNyi) h.1
      split at h
      · exact Gen.not_builds_fail h
      · rw [if_pos (.inl rfl)] at h
        exact Gen.not_builds_fail h
    | false =>
      have hReal := realArity_entry hEntry hNyi
      by_cases hArity : args.length = e.arity
      · have hSame : f.realArity = some args.length := by rw [hReal, hArity]
        rw [if_neg (not_not.mpr hArity), if_neg (by simp [hArity]), and_iff_left hSame]
        split
        next hDecl =>
          obtain ⟨name, hName⟩ := declName_isSome e hd
          rw [hName, Gen.ofOption_some_bind, ← linkable_call ⟨hEntry, hDecl, hNyi⟩ hName]
          split
          · exact Gen.builds_emit _ _
          · exact Gen.builds_emit _ _
        next hDecl =>
          have hDecl : e.requireDecl = false := by simpa using hDecl
          obtain ⟨op, hRef⟩ := funRef_isSome hEntry hDecl hd
          rw [hRef, Gen.ofOption_some_bind, Gen.builds_emit]
          refine iff_of_true (linkable_funRef hEntry hRef) ⟨by rw [hReal]; rfl, .inr (.inl ?_)⟩
          exact (isOperation_entry hEntry hNyi).mpr hDecl
      · rw [if_pos hArity]
        refine iff_of_false Gen.not_builds_fail fun h => hArity ?_
        rw [hReal] at h
        exact (Option.some.inj h.2).symm

end Function

/-! ## Code that can be linked -/

section Code

variable {A : Arithmetic} {d : Dtype} {params : List (String × LlvmValue)} {vars : List String}

theorem compileParameters_length (ts : List TeExpr) {n : Nat} {args : List LlvmValue}
    {is : List (Instr Op Datum)} (h : compileParameters A d params ts n = some (args, is)) :
    args.length = ts.length := by
  induction ts generalizing n args is with
  | nil =>
    cases h
    rfl
  | cons t ts ih =>
    rw [compileParameters] at h
    obtain ⟨_, _, _, -, hBehind, -⟩ := Gen.bind_eq_some.mp h
    obtain ⟨_, _, _, hRest, hEnd, -⟩ := Gen.bind_eq_some.mp hBehind
    cases hEnd
    rw [List.length_cons, List.length_cons, ih hRest]

mutual

/-- The code for a tree can be linked exactly if the tree is well formed and what it uses exists. -/
theorem compileExpression_builds (hd : d ≠ .bool)
    (hVars : ∀ x, (hashtableGet params x).isSome ↔ x ∈ vars) (t : TeExpr) (n : Nat) :
    (compileExpression A d params t).Builds (Linkable d) n ↔ t.Formed vars ∧ t.Fits A d := by
  cases t with
  | teNone => exact iff_of_false Gen.not_builds_fail fun h => h.1
  | teConstant value =>
    rw [compileExpression, Gen.builds_ofOption, Option.isSome_map]
    exact ⟨fun h => ⟨trivial, h⟩, fun h => h.2⟩
  | teVariable bound =>
    rw [compileExpression, Gen.builds_ofOption, hVars]
    exact ⟨fun h => ⟨h, trivial⟩, fun h => h.1⟩
  | teFunction f ps =>
    rw [compileExpression, Gen.builds_bind (R := f.Available d ∧ f.realArity = some ps.length)
      fun args is h => by rw [teFun_builds hd, compileParameters_length ps h],
      compileParameters_builds hd hVars ps n]
    simp only [TeExpr.Formed, TeExpr.Fits]
    constructor
    · rintro ⟨⟨hFormed, hFit⟩, hAvailable, hArity⟩
      exact ⟨⟨by rw [hArity]; rfl, hFormed⟩, hAvailable, hFit⟩
    · rintro ⟨⟨hArity, hFormed⟩, hAvailable, hFit⟩
      refine ⟨⟨hFormed, hFit⟩, hAvailable, ?_⟩
      obtain ⟨k, hk⟩ := Option.isSome_iff_exists.mp hAvailable.1
      rw [hk] at hArity ⊢
      exact congrArg some hArity
  | teCustom udf ps =>
    simp only [compileExpression, TeExpr.Formed, TeExpr.Fits]
    split
    next hLength =>
      rw [Gen.builds_bind (R := TeExpr.AllFormed vars ps ∧ TeExpr.AllFit A d ps) fun f is _ => ?_,
        Gen.builds_emit, and_iff_right (linkable_plain (by simp))]
      · exact ⟨fun h => ⟨⟨hLength, h.1⟩, h.2⟩, fun h => ⟨h.1.2, h.2⟩⟩
      · rw [Gen.builds_bind (R := True) fun args js _ => ?_, and_true,
          compileParameters_builds hd hVars ps _]
        rw [Gen.builds_emit, iff_true]
        exact linkable_plain (by simp)
    next hLength => exact iff_of_false Gen.not_builds_fail fun h => hLength h.1.1

theorem compileParameters_builds (hd : d ≠ .bool)
    (hVars : ∀ x, (hashtableGet params x).isSome ↔ x ∈ vars) (ts : List TeExpr) (n : Nat) :
    (compileParameters A d params ts).Builds (Linkable d) n ↔
      TeExpr.AllFormed vars ts ∧ TeExpr.AllFit A d ts := by
  cases ts with
  | nil => exact iff_of_true (Gen.builds_pure []) ⟨trivial, trivial⟩
  | cons t ts =>
    rw [compileParameters, Gen.builds_bind (R := TeExpr.AllFormed vars ts ∧ TeExpr.AllFit A d ts)
      fun arg is _ => ?_, compileExpression_builds hd hVars t n]
    · simp only [TeExpr.AllFormed, TeExpr.AllFit]
      exact and_and_and_comm
    · rw [Gen.builds_bind (R := True) fun args js _ => iff_true_intro (Gen.builds_pure _), and_true,
        compileParameters_builds hd hVars ts _]

end

end Code

/-! ## Sections without calls -/

section Plain

variable {d : Dtype} {n : Nat}

theorem emit_builds {op : Op} (h : ∀ name, op ≠ .call name) (args : List LlvmValue) :
    (Gen.emit op args : Generator LlvmValue).Builds (Linkable d) n :=
  (Gen.builds_emit op args).mpr (linkable_plain h)

theorem paramField_builds (i : Nat) : (paramField i).Builds (Linkable d) n :=
  (emit_builds (by simp) _).bind fun _ _ _ => emit_builds (by simp) _

theorem extractInput_builds {inputs : LlvmValue} {i : Nat} (hi : i < exprOperandsMax) :
    (extractInput inputs i).Builds (Linkable d) n := by
  rw [extractInput, if_pos hi]
  exact emit_builds (by simp) _

theorem localInput_builds (inputs : LlvmValue) {i : Nat} (hi : i < exprOperandsMax) (n : Nat) :
    (localInput inputs i).Builds (Linkable d) n := by
  refine (emit_builds (by simp) _).bind fun _ _ _ => ?_
  refine (extractInput_builds hi).bind fun _ _ _ => ?_
  refine (emit_builds (by simp) _).bind fun _ _ _ => ?_
  exact (emit_builds (by simp) _).bind fun _ _ _ => Gen.builds_pure _

theorem stackVars_builds {varLen : Nat} (hMany : varLen ≤ exprOperandsMax) :
    (stackVars varLen).Builds (Linkable d) n := by
  refine (emit_builds (by simp) _).bind fun _ _ _ => ?_
  refine (emit_builds (by simp) _).bind fun _ _ _ => ?_
  refine (paramField_builds 1).bind fun inputs _ _ => ?_
  refine (Gen.each_builds (fun i hi => localInput_builds inputs
    ((List.mem_range.mp hi).trans_le hMany)) _).bind fun _ _ _ => ?_
  refine (paramField_builds 4).bind fun _ _ _ => ?_
  refine (emit_builds (by simp) _).bind fun _ _ _ => ?_
  exact (emit_builds (by simp) _).bind fun _ _ _ => Gen.builds_pure _

theorem loopLen_builds : loopLen.Builds (Linkable d) n := by
  refine (paramField_builds 5).bind fun _ _ _ => ?_
  refine (paramField_builds 6).bind fun _ _ _ => ?_
  exact emit_builds (by simp) _

theorem loopEntry_builds : loopEntry.Builds (Linkable d) n := by
  refine (emit_builds (by simp) _).bind fun _ _ _ => ?_
  exact (emit_builds (by simp) _).bind fun _ _ _ => Gen.builds_pure _

theorem loopCondition_builds (indexAddr len : LlvmValue) :
    (loopCondition indexAddr len).Builds (Linkable d) n :=
  (emit_builds (by simp) _).bind fun _ _ _ => emit_builds (by simp) _

theorem loopIncrement_builds (indexAddr : LlvmValue) :
    (loopIncrement indexAddr).Builds (Linkable d) n := by
  refine (emit_builds (by simp) _).bind fun _ _ _ => ?_
  refine (emit_builds (by simp) _).bind fun _ _ _ => ?_
  exact (emit_builds (by simp) _).bind fun _ _ _ => Gen.builds_pure _

theorem loadInput_builds (index : LlvmValue) (x : String × LlvmValue) (n : Nat) :
    (loadInput index x).Builds (Linkable d) n := by
  refine (emit_builds (by simp) _).bind fun _ _ _ => ?_
  refine (emit_builds (by simp) _).bind fun _ _ _ => ?_
  exact (emit_builds (by simp) _).bind fun _ _ _ => Gen.builds_pure _

end Plain

/-! ## The function -/

section Function

variable {A : Arithmetic} {d : Dtype} {expression : TeExpr} {vars : List String}

theorem hashtableGet_isSome {α : Type} {table : List (String × α)} {key : String} :
    (hashtableGet table key).isSome ↔ key ∈ table.map Prod.fst := by
  rw [hashtableGet, List.lookup_isSome_iff, List.mem_map]
  constructor
  · rintro ⟨x, hx, hKey⟩
    exact ⟨x, List.mem_reverse.mp hx, (beq_iff_eq.mp hKey).symm⟩
  · rintro ⟨x, hx, rfl⟩
    exact ⟨x, List.mem_reverse.mpr hx, beq_self_eq_true _⟩

theorem loopBody_builds (hd : d ≠ .bool) (localOutput indexAddr : LlvmValue)
    {localInputs : List LlvmValue} (hLength : localInputs.length = vars.length) (n : Nat) :
    (loopBody A d localOutput localInputs indexAddr vars expression).Builds (Linkable d) n ↔
      expression.Formed vars ∧ expression.Fits A d := by
  rw [loopBody, Gen.builds_bind (R := expression.Formed vars ∧ expression.Fits A d)
    fun index is _ => ?_]
  · exact and_iff_right (emit_builds (by simp) _)
  · rw [Gen.builds_bind (R := expression.Formed vars ∧ expression.Fits A d) fun params js h => ?_]
    · exact and_iff_right (Gen.each_builds (fun x _ => loadInput_builds index x) _)
    · have hNames : List.Forall₂ (fun x r => r.1 = x.1) (vars.zip localInputs) params := by
        refine Gen.each_forall₂ (fun x n r ks hr => ?_) h
        obtain ⟨_, _, _, -, hr, -⟩ := Gen.bind_eq_some.mp hr
        obtain ⟨_, _, _, -, hr, -⟩ := Gen.bind_eq_some.mp hr
        obtain ⟨_, _, _, -, hr, -⟩ := Gen.bind_eq_some.mp hr
        cases hr
        rfl
      have hKeys : params.map Prod.fst = vars := by
        have hSame : List.Forall₂ (· = ·) (params.map Prod.fst)
            ((vars.zip localInputs).map Prod.fst) :=
          List.forall₂_map_left_iff.mpr (List.forall₂_map_right_iff.mpr hNames.flip)
        rw [List.forall₂_eq_eq_eq] at hSame
        rw [hSame, List.map_fst_zip (Nat.le_of_eq hLength.symm)]
      rw [Gen.builds_bind (R := True) fun result ks _ => ?_, and_true,
        compileExpression_builds hd (fun x => by rw [hashtableGet_isSome, hKeys])]
      refine iff_true_intro ((emit_builds (by simp) _).bind fun _ _ _ => ?_)
      refine (emit_builds (by simp) _).bind fun _ _ _ => ?_
      exact (emit_builds (by simp) _).bind fun _ _ _ => Gen.builds_pure _

theorem stackVars_length {varLen n : Nat} {r : LlvmValue × List LlvmValue}
    {is : List (Instr Op Datum)} (h : stackVars varLen n = some (r, is)) : r.2.length = varLen := by
  obtain ⟨_, _, _, -, h, -⟩ := Gen.bind_eq_some.mp h
  obtain ⟨_, _, _, -, h, -⟩ := Gen.bind_eq_some.mp h
  obtain ⟨inputs, _, _, -, h, -⟩ := Gen.bind_eq_some.mp h
  obtain ⟨localInputs, _, _, hEach, h, -⟩ := Gen.bind_eq_some.mp h
  obtain ⟨_, _, _, -, h, -⟩ := Gen.bind_eq_some.mp h
  obtain ⟨_, _, _, -, h, -⟩ := Gen.bind_eq_some.mp h
  obtain ⟨_, _, _, -, h, -⟩ := Gen.bind_eq_some.mp h
  cases h
  have hAll := Gen.each_forall₂ (R := fun _ _ => True) (fun _ _ _ _ _ => trivial) hEach
  exact hAll.length_eq.symm.trans List.length_range

/-- There are stack variables for as many operands as the inputs have room for. -/
theorem stackVars_few {varLen n : Nat} {r : LlvmValue × List LlvmValue}
    {is : List (Instr Op Datum)} (h : stackVars varLen n = some (r, is)) :
    varLen ≤ exprOperandsMax := by
  obtain ⟨_, _, _, -, h, -⟩ := Gen.bind_eq_some.mp h
  obtain ⟨_, _, _, -, h, -⟩ := Gen.bind_eq_some.mp h
  obtain ⟨inputs, _, _, -, h, -⟩ := Gen.bind_eq_some.mp h
  obtain ⟨localInputs, _, _, hEach, -, -⟩ := Gen.bind_eq_some.mp h
  have hAll := Gen.each_forall₂ (R := fun i _ => i < exprOperandsMax) (fun i _ _ _ hInput => by
    obtain ⟨_, _, _, -, hInput, -⟩ := Gen.bind_eq_some.mp hInput
    obtain ⟨_, _, _, hExtract, -, -⟩ := Gen.bind_eq_some.mp hInput
    unfold extractInput at hExtract
    split at hExtract
    · assumption
    · cases hExtract) hEach
  by_contra hMany
  have hIndex : exprOperandsMax < (List.range varLen).length := by
    rw [List.length_range]
    exact Nat.lt_of_not_le hMany
  have hLt := hAll.get hIndex (hIndex.trans_eq hAll.length_eq)
  simp at hLt

/-- A tree is compiled to code that can be linked exactly if there is room for its operands, it is
well formed and what it uses exists for its type. -/
theorem compileFunction_iff (hd : d ≠ .bool) :
    (∃ code, compileFunction A d expression vars = some code ∧ Resolved d code) ↔
      vars.length ≤ exprOperandsMax ∧ expression.Formed vars ∧ expression.Fits A d := by
  constructor
  · rintro ⟨code, hCode, hResolved⟩
    obtain ⟨S, rfl⟩ := Sections.of_compileFunction hCode
    rw [← loopBody_builds hd S.localOutput S.indexAddr (stackVars_length S.stackVars_eq) S.n₄]
    exact ⟨stackVars_few S.stackVars_eq, _, _, S.body_eq,
      fun i hi => hResolved ⟨S.body, .br 5⟩ (by simp [Sections.code]) i hi⟩
  · rintro ⟨hMany, h⟩
    obtain ⟨r, is₁, h₁, hAll₁⟩ := stackVars_builds (d := d) (n := 0) hMany
    obtain ⟨len, is₂, h₂, hAll₂⟩ := loopLen_builds (d := d) (n := is₁.length)
    obtain ⟨index, is₃, h₃, hAll₃⟩ := loopEntry_builds (d := d) (n := is₁.length + is₂.length)
    obtain ⟨cond, is₄, h₄, hAll₄⟩ := loopCondition_builds (d := d)
      (n := is₁.length + is₂.length + is₃.length) index len
    obtain ⟨⟨⟩, is₅, h₅, hAll₅⟩ := (loopBody_builds hd r.1 index (stackVars_length h₁)
      (is₁.length + is₂.length + is₃.length + is₄.length)).mpr h
    obtain ⟨⟨⟩, is₆, h₆, hAll₆⟩ := loopIncrement_builds (d := d)
      (n := is₁.length + is₂.length + is₃.length + is₄.length + is₅.length) index
    refine ⟨[⟨is₁, .br 1⟩, ⟨is₂, .br 2⟩, ⟨is₃, .br 3⟩, ⟨is₄, .condBr cond 4 6⟩, ⟨is₅, .br 5⟩,
      ⟨is₆, .br 3⟩, ⟨[], .ret (.const (.i32 0))⟩], ?_, ?_⟩
    · rw [compileFunction, if_neg hd]
      refine Option.bind_eq_some_iff.mpr ⟨(r, is₁), h₁, ?_⟩
      refine Option.bind_eq_some_iff.mpr ⟨(len, is₂), h₂, ?_⟩
      refine Option.bind_eq_some_iff.mpr ⟨(index, is₃), h₃, ?_⟩
      refine Option.bind_eq_some_iff.mpr ⟨(cond, is₄), h₄, ?_⟩
      refine Option.bind_eq_some_iff.mpr ⟨((), is₅), h₅, ?_⟩
      exact Option.bind_eq_some_iff.mpr ⟨((), is₆), h₆, rfl⟩
    · intro block hBlock
      simp only [List.mem_cons, List.not_mem_nil, or_false] at hBlock
      rcases hBlock with rfl | rfl | rfl | rfl | rfl | rfl | rfl
      · exact hAll₁
      · exact hAll₂
      · exact hAll₃
      · exact hAll₄
      · exact hAll₅
      · exact hAll₆
      · exact fun i hi => absurd hi List.not_mem_nil

end Function

/-! ## Accepted trees are well formed -/

/-- What a token says is so. -/
def Token.Sound (L : Lexicon) : Token → Prop
  | tokVariable bound => bound ∈ L.lookup
  | teFunction arity f => f.realArity = some arity
  | tokInfix f => f.realArity = some 2
  | _ => True

section Accepted

open Phrases Grammar

variable {L : Lexicon} {ks : List Token} {t : TeExpr}

theorem functions_realArity : ∀ f ∈ functions, f.function.realArity = some f.arity := by decide

theorem nameToken_sound (name : List Char) : (L.nameToken name).Sound L := by
  unfold Lexicon.nameToken
  split
  next hFind => exact List.mem_of_find?_eq_some hFind
  next =>
    split
    next f hFind =>
      obtain ⟨i, -, hi⟩ := Option.bind_eq_some_iff.mp hFind
      exact functions_realArity f (List.mem_of_getElem? hi)
    next =>
      split
      · trivial
      · trivial

theorem symbolToken_sound {c : Char} {cs : List Char} {r : Token × List Char}
    (h : symbolToken c cs = some r) : r.1.Sound L := by
  unfold symbolToken at h
  split at h
  case h_3 =>
    split at h <;> cases h <;> rfl
  all_goals cases h <;> first | rfl | trivial

theorem nextToken_sound (text : List Char) : (L.nextToken text).1.Sound L := by
  induction text with
  | nil => trivial
  | cons c cs ih =>
    rw [Lexicon.nextToken]
    split
    · trivial
    · split
      · exact nameToken_sound _
      · split
        next h => exact symbolToken_sound h
        next => exact ih

theorem spans_sound {s s' : TeState} (h : Spans L.stream s ks s') (hs : s.type.Sound L) :
    ∀ k ∈ ks, k.Sound L := by
  induction h with
  | nil => exact fun k hk => absurd hk List.not_mem_nil
  | cons _ ih =>
    intro k hk
    rcases List.mem_cons.mp hk with rfl | hk
    · exact hs
    · exact ih (nextToken_sound _) k hk

/-- The trees of phrases of sound tokens are well formed. -/
def PhraseFormed (L : Lexicon) (P : TePhrase) : Prop :=
  ∀ ks t, P ks t → (∀ k ∈ ks, k.Sound L) → t.Formed L.lookup

theorem chain_formed {op : Token → Option (TeExpr → TeExpr → TeExpr)} {Sub : TePhrase}
    (hOp : ∀ k f t u, op k = some f → t.Formed L.lookup → u.Formed L.lookup →
      (f t u).Formed L.lookup)
    (hSub : PhraseFormed L Sub) : PhraseFormed L (Chain op Sub) := by
  intro ks t h hs
  induction h with
  | one h => exact hSub _ _ h hs
  | more _ hf hLast ih =>
    refine hOp _ _ _ _ hf (ih fun k hk => hs k (List.mem_append_left _ hk)) ?_
    exact hSub _ _ hLast fun k hk => hs k (List.mem_append_right _ (List.mem_cons_of_mem _ hk))

theorem binary_formed {f : ExprType} (hf : f.realArity.getD 2 = 2) {t u : TeExpr}
    (ht : t.Formed L.lookup) (hu : u.Formed L.lookup) :
    (Lexicon.binary f t u).Formed L.lookup :=
  ⟨hf, ht, hu, trivial⟩

theorem factorOp_formed (k : Token) (f : TeExpr → TeExpr → TeExpr) (t u : TeExpr)
    (h : Lexicon.factorOp k = some f) (ht : t.Formed L.lookup) (hu : u.Formed L.lookup) :
    (f t u).Formed L.lookup := by
  unfold Lexicon.factorOp at h
  split at h <;> cases h
  exact binary_formed rfl ht hu

theorem termOp_formed (k : Token) (f : TeExpr → TeExpr → TeExpr) (t u : TeExpr)
    (h : Lexicon.termOp k = some f) (ht : t.Formed L.lookup) (hu : u.Formed L.lookup) :
    (f t u).Formed L.lookup := by
  unfold Lexicon.termOp at h
  split at h <;> cases h
  all_goals exact binary_formed rfl ht hu

theorem exprOp_formed (k : Token) (f : TeExpr → TeExpr → TeExpr) (t u : TeExpr)
    (h : Lexicon.exprOp k = some f) (ht : t.Formed L.lookup) (hu : u.Formed L.lookup) :
    (f t u).Formed L.lookup := by
  unfold Lexicon.exprOp at h
  split at h <;> cases h
  all_goals exact binary_formed rfl ht hu

theorem listOp_formed (k : Token) (f : TeExpr → TeExpr → TeExpr) (t u : TeExpr)
    (h : Lexicon.listOp k = some f) (ht : t.Formed L.lookup) (hu : u.Formed L.lookup) :
    (f t u).Formed L.lookup := by
  unfold Lexicon.listOp at h
  split at h <;> cases h
  exact binary_formed rfl ht hu

section Rules

variable {P : TePhrase}

theorem expr_formed (hP : PhraseFormed L P) : PhraseFormed L (Grammar.Expr P) :=
  chain_formed exprOp_formed (chain_formed termOp_formed (chain_formed factorOp_formed hP))

theorem list_formed (hP : PhraseFormed L P) : PhraseFormed L (ExprList P) :=
  chain_formed listOp_formed (expr_formed hP)

theorem arguments_formed (hP : PhraseFormed L P) {ps : List TeExpr} (h : Arguments P ks ps)
    (hs : ∀ k ∈ ks, k.Sound L) : TeExpr.AllFormed L.lookup ps := by
  induction h with
  | one h => exact ⟨hP _ _ h hs, trivial⟩
  | more h _ ih =>
    refine ⟨hP _ _ h fun k hk => hs k (List.mem_append_left _ hk), ih fun k hk => hs k ?_⟩
    exact List.mem_append_right _ (List.mem_cons_of_mem _ hk)

theorem base_formed (hP : PhraseFormed L P) : PhraseFormed L (Base P) := by
  intro ks t h hs
  cases h with
  | constant value => trivial
  | operand bound => exact hs _ List.mem_cons_self
  | function1 f h =>
    have hArity : f.realArity = some 1 := hs _ List.mem_cons_self
    refine ⟨by rw [hArity]; rfl, hP _ _ h fun k hk => hs k (List.mem_cons_of_mem _ hk), trivial⟩
  | functionX f hNe h hLength =>
    have hArity : f.realArity = some _ := hs _ List.mem_cons_self
    refine ⟨by rw [hArity, hLength]; rfl, arguments_formed (expr_formed hP) h fun k hk => hs k ?_⟩
    simp [hk]
  | custom udf h hLength =>
    refine ⟨hLength, arguments_formed (expr_formed hP) h fun k hk => hs k ?_⟩
    simp [hk]
  | list h => exact list_formed hP _ _ h fun k hk => hs k (by simp [hk])

theorem signed_formed (hP : PhraseFormed L P) (sign : Int) : PhraseFormed L (Signed P sign) := by
  intro ks t h hs
  induction h with
  | @base sign ks t h =>
    have hFormed := hP _ _ h hs
    unfold Lexicon.signed
    split
    · exact hFormed
    · exact ⟨rfl, hFormed, trivial⟩
  | plus _ ih => exact ih fun k hk => hs k (List.mem_cons_of_mem _ hk)
  | minus _ ih => exact ih fun k hk => hs k (List.mem_cons_of_mem _ hk)

end Rules

theorem power_formed (n : Nat) : PhraseFormed L (Grammar.Power n) := by
  induction n with
  | zero => exact fun _ _ h => h.elim
  | succ n ih => exact signed_formed (base_formed ih) 1

theorem accepted_formed {text : List Char} (hLexes : Lexes L text ks) (h : Accepted ks t) :
    t.Formed L.lookup := by
  obtain ⟨s, hSpans, -⟩ := hLexes
  obtain ⟨n, hPhrase⟩ := h
  exact list_formed (power_formed n) _ _ hPhrase (spans_sound hSpans (nextToken_sound _))

end Accepted

section Compile

variable {A : Arithmetic} {m : Machine} {engine : Engine} {toDouble : ℚ → FP} {registry : UdfRegistry}
  {d : Dtype} {expr : String} {vars : List String}

/-- An expression of the grammar compiles if what it uses exists and its constants fit. -/
theorem jugExpressionCompile_ok (hEngine : engine.Lawful A m) (hd : d ≠ .bool)
    (hMany : vars.length ≤ exprOperandsMax) {ks : List Token} {t : TeExpr}
    (hLexes : Grammar.Lexes ⟨toDouble, vars, registry⟩ expr.toList ks)
    (hAccepted : Grammar.Accepted ks t) (hFits : t.Fits A d) :
    ∃ code func, compileFunction A d t vars = some code ∧ engine d code = some func ∧
      jugExpressionCompile engine A toDouble registry d expr vars = .ok func := by
  have hParse := Lexicon.jugTeCompile_complete hLexes hAccepted
  have hFormed := accepted_formed hLexes hAccepted
  obtain ⟨code, hCode, hResolved⟩ := (compileFunction_iff (A := A) hd).mpr ⟨hMany, hFormed, hFits⟩
  obtain ⟨func, hFunc⟩ := Option.isSome_iff_exists.mp ((hEngine.links d code).mpr hResolved)
  refine ⟨code, func, hCode, hFunc, ?_⟩
  simp only [jugExpressionCompile, hParse, hCode, hFunc]

/-- A text compiles exactly if there is room for the operands and it is an expression of the grammar
whose functions exist for the type and whose constants fit into it. -/
theorem jugExpressionCompile_iff (hEngine : engine.Lawful A m) (hd : d ≠ .bool) :
    (∃ func, jugExpressionCompile engine A toDouble registry d expr vars = .ok func) ↔
      vars.length ≤ exprOperandsMax ∧
      ∃ ks t, Grammar.Lexes ⟨toDouble, vars, registry⟩ expr.toList ks ∧ Grammar.Accepted ks t ∧
        t.Fits A d := by
  constructor
  · rintro ⟨func, h⟩
    unfold jugExpressionCompile at h
    split at h
    · cases h
    · cases h
    next t hParse =>
      split at h
      · cases h
      next code hCode =>
        split at h
        · cases h
        next func hFunc =>
          have hResolved := (hEngine.links d code).mp (by rw [hFunc]; rfl)
          obtain ⟨ks, hLexes, hAccepted⟩ := Lexicon.jugTeCompile_sound hParse
          obtain ⟨hMany, -, hFits⟩ := (compileFunction_iff hd).mp ⟨code, hCode, hResolved⟩
          exact ⟨hMany, ks, t, hLexes, hAccepted, hFits⟩
  · rintro ⟨hMany, ks, t, hLexes, hAccepted, hFits⟩
    obtain ⟨code, func, -, -, hOk⟩ := jugExpressionCompile_ok hEngine hd hMany hLexes hAccepted hFits
    exact ⟨func, hOk⟩

end Compile

namespace SupportExample

/-- The names of an expression of one operand. -/
def lexicon : Lexicon := ⟨.fin, ["x"], []⟩

/-- The call of a function. -/
def applied (f : ExprType) : TeExpr := .teFunction f [.teVariable "x"]

theorem abs_parsed : lexicon.jugTeCompile "abs(x)".toList = .ok (.ok (applied .abs)) := rfl

theorem sqrt_parsed : lexicon.jugTeCompile "sqrt(x)".toList = .ok (.ok (applied .sqrt)) := rfl

end SupportExample

open SupportExample LoopExample in
/-- There is an absolute value of integers, but no square root, and no room for 129 operands. -/
theorem jugExpressionCompile_iff_integers :
    (∃ func, jugExpressionCompile (referenceEngine arithmetic machine) arithmetic .fin [] .int32
      "abs(x)" ["x"] = .ok func) ∧
    (¬ ∃ func, jugExpressionCompile (referenceEngine arithmetic machine) arithmetic .fin [] .int32
      "sqrt(x)" ["x"] = .ok func) ∧
    ¬ ∃ func, jugExpressionCompile (referenceEngine arithmetic machine) arithmetic .fin [] .int32
      "abs(x)" (List.replicate 129 "x") = .ok func := by
  have hEngine := referenceEngine_lawful arithmetic machine
  refine ⟨?_, ?_, fun h => ?_⟩
  · obtain ⟨ks, hLexes, hAccepted⟩ := Lexicon.jugTeCompile_sound abs_parsed
    exact (jugExpressionCompile_iff hEngine (by decide)).mpr
      ⟨by decide, ks, _, hLexes, hAccepted, by decide, trivial, trivial⟩
  · intro h
    obtain ⟨-, ks, t, hLexes, hAccepted, hFits⟩ :=
      (jugExpressionCompile_iff hEngine (by decide)).mp h
    cases (Lexicon.jugTeCompile_complete hLexes hAccepted).symm.trans sqrt_parsed
    exact absurd hFits.1 (by decide)
  · have hMany := ((jugExpressionCompile_iff hEngine (by decide)).mp h).1
    rw [List.length_replicate] at hMany
    exact absurd hMany (by decide)

end IronArray
