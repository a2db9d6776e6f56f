import IronArray.Minjugg.Meaning

/-!
# A compiled function

The function that the compiler makes of a tree goes over the elements of a block. It returns exactly
if the tree has a value at every element, and then it has stored these values and nothing else:
`compileFunction_returns`. The padding of a block counts as well.
-/

namespace IronArray

open Ssa Llvm

section Sections

variable {A : Arithmetic} {m : Machine} {d : Dtype} {p : EvalPparams} {n : Nat}
  {s : State Datum Memory} {out : Nat → Cell} {slots : List (Option Datum)}

/-! ## Steps -/

theorem alloca_does : (Gen.emit .alloca [] : Generator LlvmValue).Does (processor A m d p) n s
    fun v n' s' => Holds n' s' v (.ptr (.slot s.mem.slots.length)) ∧
      s'.mem = ⟨s.mem.slots ++ [none], s.mem.out⟩ :=
  .emit .nil rfl

theorem load_does {v : LlvmValue} {a : Address} {w : Datum} (hv : Holds n s v (.ptr a))
    (hLoad : Llvm.load m d p s.mem a = some w) :
    (Gen.emit .load [v] : Generator LlvmValue).Does (processor A m d p) n s
      fun v n' s' => Holds n' s' v w ∧ s'.mem = s.mem := by
  apply Gen.Does.emit (.cons hv .nil)
  show (Llvm.load m d p s.mem a).map _ = _
  rw [hLoad]
  rfl

theorem store_does {v v' : LlvmValue} {a : Address} {w : Datum} (mem : Memory)
    (hv : Holds n s v w) (hv' : Holds n s v' (.ptr a))
    (hStore : Llvm.store d s.mem w a = some mem) :
    (Gen.emit .store [v, v'] : Generator LlvmValue).Does (processor A m d p) n s
      fun _ _ s' => s'.mem = mem := by
  have hEmit : (Gen.emit .store [v, v'] : Generator LlvmValue).Does (processor A m d p) n s
      fun v n' s' => Holds n' s' v .void ∧ s'.mem = mem := by
    apply Gen.Does.emit (.cons hv (.cons hv' .nil))
    show (Llvm.store d s.mem w a).map _ = _
    rw [hStore]
    rfl
  exact hEmit.mono fun _ _ _ _ _ h => h.2

/-- A step without an effect on memory. -/
theorem eval_does {op : Op} (hPure : op.Pure) {args : List LlvmValue} {ws : List Datum} {w : Datum}
    (hArgs : List.Forall₂ (Holds n s) args ws) (hEval : Llvm.eval A d op ws = some w) :
    (Gen.emit op args : Generator LlvmValue).Does (processor A m d p) n s
      fun v n' s' => Holds n' s' v w ∧ s'.mem = s.mem := by
  apply Gen.Does.emit hArgs
  show exec A m d p op ws s.mem = _
  rw [exec_pure hPure, hEval]
  rfl

theorem paramField_does {i : Nat} {w : Datum}
    (hLoad : ∀ mem, Llvm.load m d p mem (.field i) = some w) :
    (paramField i).Does (processor A m d p) n s fun v n' s' =>
      Holds n' s' v w ∧ s'.mem = s.mem := by
  have hPtr : (Gen.emit (.structGep i) [.const (.ptr .params)] : Generator LlvmValue).Does
      (processor A m d p) n s fun v n' s' => Holds n' s' v (.ptr (.field i)) ∧ s'.mem = s.mem :=
    eval_does ⟨by simp, by simp, by simp⟩ (.cons (.const n s _) .nil) rfl
  refine hPtr.bind fun ptr n' s' _ _ hPtr => ?_
  rw [← hPtr.2]
  exact load_does hPtr.1 (hLoad _)

/-! ## Stack variables -/

/-- The stack variables for the operands. -/
def inputSlots (ps : List Pointer) : List (Option Datum) :=
  ps.map fun q => some (.ptr (.input q 0))

/-- The stack variables in front of the loop. -/
def frame (p : EvalPparams) : List (Option Datum) := some (.ptr (.output 0)) :: inputSlots p.inputs

/-- The values that hold the addresses of the stack variables for operands. -/
def InputsAt (ps : List Pointer) (localInputs : List LlvmValue) (n : Nat) (s : State Datum Memory) :
    Prop :=
  List.Forall₂ (fun v (x : Pointer × Nat) => Holds n s v (.ptr (.slot x.2))) localInputs (ps.zipIdx 1)

theorem InputsAt.mono {ps : List Pointer} {localInputs : List LlvmValue} {n' : Nat}
    {s' : State Datum Memory} (h : InputsAt ps localInputs n s) (hSame : SameBelow n s s')
    (hLe : n ≤ n') : InputsAt ps localInputs n' s' :=
  h.imp fun _ _ hv => hv.mono hSame hLe

theorem localInput_does {inputs : LlvmValue} {i : Nat} {q : Pointer}
    (hInputs : Holds n s inputs (.array p.inputs)) (hq : p.inputs[i]? = some q) :
    (localInput inputs i).Does (processor A m d p) n s fun v n' s' =>
      Holds n' s' v (.ptr (.slot s.mem.slots.length)) ∧
        s'.mem = ⟨s.mem.slots ++ [some (.ptr (.input q 0))], s.mem.out⟩ := by
  refine alloca_does.bind fun v n₁ s₁ hLe₁ hSame₁ hv => ?_
  have hAddr : (extractInput inputs i).Does (processor A m d p) n₁ s₁ fun v n' s' =>
      Holds n' s' v (.ptr (.input q 0)) ∧ s'.mem = s₁.mem := by
    unfold extractInput
    split
    · refine eval_does ⟨by simp, by simp, by simp⟩ (.cons (hInputs.mono hSame₁ hLe₁) .nil) ?_
      show p.inputs[i]?.map _ = _
      rw [hq]
      rfl
    · exact .fail
  refine hAddr.bind fun addr n₂ s₂ hLe₂ hSame₂ hAddr => ?_
  have hCast : (Gen.emit .bitCast [addr] : Generator LlvmValue).Does (processor A m d p) n₂ s₂
      fun v n' s' => Holds n' s' v (.ptr (.input q 0)) ∧ s'.mem = s₂.mem :=
    eval_does ⟨by simp, by simp, by simp⟩ (.cons hAddr.1 .nil) rfl
  refine hCast.bind fun cast n₃ s₃ hLe₃ hSame₃ hCast => ?_
  have hv₃ := (hv.1.mono hSame₂ hLe₂).mono hSame₃ hLe₃
  have hMem : s₃.mem = ⟨s.mem.slots ++ [none], s.mem.out⟩ :=
    hCast.2.trans (hAddr.2.trans hv.2)
  refine (store_does ⟨s.mem.slots ++ [some (.ptr (.input q 0))], s.mem.out⟩ hCast.1 hv₃ ?_).bind
    fun _ n₄ s₄ hLe₄ hSame₄ hStored => ?_
  · rw [hMem]
    simp [Llvm.store]
  · exact .pure ⟨hv₃.mono hSame₄ hLe₄, hStored⟩

/-- The loop over the operands in front of operand `i`. -/
structure InputsStored (p : EvalPparams) (out : Nat → Cell) (localOutput inputs : LlvmValue)
    (left : List Nat) (done : List LlvmValue) (n : Nat) (s : State Datum Memory) : Prop where
  next : left = List.range' done.length (p.inputs.length - done.length)
  output : Holds n s localOutput (.ptr (.slot 0))
  array : Holds n s inputs (.array p.inputs)
  stored : InputsAt (p.inputs.take done.length) done n s
  mem : s.mem = ⟨none :: inputSlots (p.inputs.take done.length), out⟩

theorem InputsStored.length_le {localOutput inputs : LlvmValue} {left : List Nat}
    {done : List LlvmValue} (h : InputsStored p out localOutput inputs left done n s) :
    done.length ≤ p.inputs.length := by
  have hLength := h.stored.length_eq
  rw [List.length_zipIdx, List.length_take] at hLength
  omega

theorem localInput_stored {localOutput inputs : LlvmValue} (i : Nat) (left : List Nat)
    (done : List LlvmValue) (n : Nat) (s : State Datum Memory)
    (h : InputsStored p out localOutput inputs (i :: left) done n s) :
    (localInput inputs i).Does (processor A m d p) n s fun v n' s' =>
      InputsStored p out localOutput inputs left (done ++ [v]) n' s' := by
  have hLe := h.length_le
  obtain ⟨j, hj⟩ : ∃ j, p.inputs.length - done.length = j + 1 := by
    refine ⟨p.inputs.length - done.length - 1, ?_⟩
    have hLeft := congrArg List.length h.next
    rw [List.length_cons, List.length_range'] at hLeft
    omega
  have hLeft := h.next
  rw [hj, List.range'_succ] at hLeft
  obtain ⟨rfl, rfl⟩ := List.cons.inj hLeft
  have hLess : done.length < p.inputs.length := by omega
  have hq : p.inputs[done.length]? = some p.inputs[done.length] := List.getElem?_eq_getElem hLess
  have hTake : p.inputs.take (done.length + 1) =
      p.inputs.take done.length ++ [p.inputs[done.length]] := by
    rw [List.take_add_one, hq]
    rfl
  have hSlots : s.mem.slots.length = done.length + 1 := by
    rw [h.mem]
    simp [inputSlots, hLe]
  refine (localInput_does h.array hq).mono fun v n' s' hLe' hSame hv => ?_
  have hLength : (done ++ [v]).length = done.length + 1 := by simp
  constructor
  · rw [hLength]
    congr 1
    omega
  · exact h.output.mono hSame hLe'
  · exact h.array.mono hSame hLe'
  · rw [hLength, hTake, InputsAt, List.zipIdx_append]
    refine List.rel_append (h.stored.mono hSame hLe') (.cons ?_ .nil)
    show Holds n' s' v (.ptr (.slot (1 + (p.inputs.take done.length).length)))
    rw [List.length_take, Nat.min_eq_left hLe, Nat.add_comm, ← hSlots]
    exact hv.1
  · rw [hv.2, hLength, hTake, h.mem, inputSlots, inputSlots, List.map_append]
    rfl

/-- What the sections in front of the loop leave. -/
structure Locals (p : EvalPparams) (localOutput : LlvmValue) (localInputs : List LlvmValue)
    (n : Nat) (s : State Datum Memory) : Prop where
  output : Holds n s localOutput (.ptr (.slot 0))
  inputs : InputsAt p.inputs localInputs n s

theorem Locals.mono {localOutput : LlvmValue} {localInputs : List LlvmValue} {n' : Nat}
    {s' : State Datum Memory} (h : Locals p localOutput localInputs n s) (hSame : SameBelow n s s')
    (hLe : n ≤ n') : Locals p localOutput localInputs n' s' :=
  ⟨h.output.mono hSame hLe, h.inputs.mono hSame hLe⟩

theorem stackVars_does (hMem : s.mem = ⟨[], out⟩) :
    (stackVars p.inputs.length).Does (processor A m d p) n s fun r n' s' =>
      Locals p r.1 r.2 n' s' ∧ s'.mem = ⟨frame p, out⟩ := by
  refine alloca_does.bind fun localOutput n₁ s₁ hLe₁ hSame₁ hOutput => ?_
  have hFirst : (Gen.emit (.structGep 0) [.const (.ptr .params)] : Generator LlvmValue).Does
      (processor A m d p) n₁ s₁ fun _ _ s' => s'.mem = s₁.mem :=
    (eval_does (w := .ptr (.field 0)) ⟨by simp, by simp, by simp⟩ (.cons (.const n₁ s₁ _) .nil)
      rfl).mono fun _ _ _ _ _ h => h.2
  refine hFirst.bind fun _ n₂ s₂ hLe₂ hSame₂ hFirst => ?_
  refine (paramField_does (w := .array p.inputs) fun _ => rfl).bind
    fun inputs n₃ s₃ hLe₃ hSame₃ hInputs => ?_
  have hStart : InputsStored p out localOutput inputs (List.range p.inputs.length) [] n₃ s₃ := by
    constructor
    · exact List.range_eq_range'
    · have hZero : s.mem.slots.length = 0 := by rw [hMem]; rfl
      rw [hZero] at hOutput
      exact (hOutput.1.mono hSame₂ hLe₂).mono hSame₃ hLe₃
    · exact hInputs.1
    · exact .nil
    · rw [hInputs.2, hFirst, hOutput.2, hMem]
      rfl
  refine (Gen.Does.each (fun i left done n s => localInput_stored i left done n s) _ [] hStart).bind
    fun localInputs n₄ s₄ hLe₄ hSame₄ hStored => ?_
  rw [List.nil_append] at hStored
  have hAll : localInputs.length = p.inputs.length := by
    have hLeft := congrArg List.length hStored.next
    have hLe := hStored.length_le
    rw [List.length_nil, List.length_range'] at hLeft
    omega
  have hDone := hStored.stored
  have hMem₄ := hStored.mem
  rw [hAll, List.take_length] at hDone hMem₄
  refine (paramField_does (w := .ptr (.output 0)) fun _ => rfl).bind
    fun o n₅ s₅ hLe₅ hSame₅ ho => ?_
  have hCast : (Gen.emit .bitCast [o] : Generator LlvmValue).Does (processor A m d p) n₅ s₅
      fun v n' s' => Holds n' s' v (.ptr (.output 0)) ∧ s'.mem = s₅.mem :=
    eval_does ⟨by simp, by simp, by simp⟩ (.cons ho.1 .nil) rfl
  refine hCast.bind fun cast n₆ s₆ hLe₆ hSame₆ hCast => ?_
  have hLocals : Locals p localOutput localInputs n₆ s₆ :=
    ((Locals.mono ⟨hStored.output, hDone⟩ hSame₅ hLe₅).mono hSame₆ hLe₆)
  refine (store_does ⟨frame p, out⟩ hCast.1 hLocals.output ?_).bind
    fun _ n₇ s₇ hLe₇ hSame₇ hFrame => ?_
  · rw [hCast.2, ho.2, hMem₄]
    rfl
  · exact .pure ⟨hLocals.mono hSame₇ hLe₇, hFrame⟩

/-! ## The sections of the loop -/

/-- A block of `N` elements. -/
structure BlockOf (p : EvalPparams) (N : Nat) : Prop where
  size : p.outSize = N * p.outTypesize
  pos : 0 < p.outTypesize
  small : p.outSize < 2 ^ 31

theorem wrap_int32 {z : Nat} (h : z < 2 ^ 31) : Dtype.int32.wrap z = z := by
  apply Dtype.wrap_of_bounds
  · show (-(2147483648 : Nat) : Int) ≤ z
    omega
  · show (z : Int) ≤ (2147483648 : Nat) - 1
    omega

namespace BlockOf

variable {N : Nat}

theorem le_size (h : BlockOf p N) : N ≤ p.outSize := by
  rw [h.size]
  exact Nat.le_mul_of_pos_right _ h.pos

/-- The number of rounds. -/
theorem exactSDiv (h : BlockOf p N) (hType : p.outTypesize < 2 ^ 31) :
    Llvm.eval A d .exactSDiv [.i32 (Dtype.int32.wrap p.outSize),
      .i32 (Dtype.int32.wrap p.outTypesize)] = some (.i32 N) := by
  have hPos := h.pos
  have hLe := h.le_size
  have hSmall := h.small
  have hDiv : ((p.outSize : Int)).tdiv p.outTypesize = N := by
    rw [h.size, ← Int.ofNat_tdiv, Nat.mul_div_cancel _ h.pos]
  have hMod : (p.outSize : Int) % p.outTypesize = 0 := by
    rw [h.size, Int.natCast_mul]
    exact Int.mul_emod_left _ _
  have hSDiv : Dtype.int32.sDiv p.outSize p.outTypesize = some (N : Int) := by
    rw [Dtype.sDiv, hDiv, wrap_int32 (by omega), if_neg]
    rintro (hZero | hNe)
    · omega
    · exact hNe rfl
  show (if _ then _ else _) = _
  rw [wrap_int32 h.small, wrap_int32 hType, if_pos hMod, hSDiv]
  rfl

end BlockOf

theorem loopLen_does {N : Nat} (h : BlockOf p N) (hType : p.outTypesize < 2 ^ 31) :
    loopLen.Does (processor A m d p) n s fun v n' s' =>
      Holds n' s' v (.i32 N) ∧ s'.mem = s.mem := by
  refine (paramField_does fun _ => rfl).bind fun size n₁ s₁ hLe₁ hSame₁ hSize => ?_
  refine (paramField_does fun _ => rfl).bind fun typesize n₂ s₂ hLe₂ hSame₂ hTypesize => ?_
  have hMem : s₂.mem = s.mem := hTypesize.2.trans hSize.2
  rw [← hMem]
  exact eval_does ⟨by simp, by simp, by simp⟩
    (.cons (hSize.1.mono hSame₂ hLe₂) (.cons hTypesize.1 .nil)) (h.exactSDiv hType)

theorem loopEntry_does (hMem : s.mem = ⟨slots, out⟩) :
    loopEntry.Does (processor A m d p) n s fun v n' s' =>
      Holds n' s' v (.ptr (.slot slots.length)) ∧ s'.mem = ⟨slots ++ [some (.i32 0)], out⟩ := by
  refine alloca_does.bind fun v n₁ s₁ hLe₁ hSame₁ hv => ?_
  rw [hMem] at hv
  refine (store_does ⟨slots ++ [some (.i32 0)], out⟩ (.const n₁ s₁ (.i32 0)) hv.1 ?_).bind
    fun _ n₂ s₂ hLe₂ hSame₂ hStored => ?_
  · rw [hv.2]
    simp [Llvm.store]
  · exact .pure ⟨hv.1.mono hSame₂ hLe₂, hStored⟩

/-- The state in front of round `i`. -/
structure InRound (slots : List (Option Datum)) (indexAddr : LlvmValue) (i n : Nat)
    (s : State Datum Memory) (out : Nat → Cell) : Prop where
  index : Holds n s indexAddr (.ptr (.slot slots.length))
  mem : s.mem = ⟨slots ++ [some (.i32 i)], out⟩

theorem InRound.mono {indexAddr : LlvmValue} {i n' : Nat} {s' : State Datum Memory}
    (h : InRound slots indexAddr i n s out) (hSame : SameBelow n s s') (hLe : n ≤ n')
    (hMem : s'.mem = s.mem) : InRound slots indexAddr i n' s' out :=
  ⟨h.index.mono hSame hLe, hMem.trans h.mem⟩

theorem load_index {indexAddr : LlvmValue} {i : Nat} (h : InRound slots indexAddr i n s out) :
    (Gen.emit .load [indexAddr] : Generator LlvmValue).Does (processor A m d p) n s
      fun v n' s' => Holds n' s' v (.i32 i) ∧ s'.mem = s.mem := by
  apply load_does h.index
  show s.mem.slots[slots.length]?.join = _
  rw [h.mem]
  simp

theorem loopCondition_does {indexAddr len : LlvmValue} {i N : Nat}
    (h : InRound slots indexAddr i n s out) (hLen : Holds n s len (.i32 N)) :
    (loopCondition indexAddr len).Does (processor A m d p) n s fun v n' s' =>
      Holds n' s' v (.i1 ((i : Int) < N)) ∧ s'.mem = s.mem := by
  refine (load_index h).bind fun index n₁ s₁ hLe₁ hSame₁ hIndex => ?_
  rw [← hIndex.2]
  exact eval_does ⟨by simp, by simp, by simp⟩
    (.cons hIndex.1 (.cons (hLen.mono hSame₁ hLe₁) .nil)) rfl

theorem loopIncrement_does {indexAddr : LlvmValue} {i : Nat} (hSmall : i + 1 < 2 ^ 31)
    (h : InRound slots indexAddr i n s out) :
    (loopIncrement indexAddr).Does (processor A m d p) n s fun _ n' s' =>
      InRound slots indexAddr (i + 1) n' s' out := by
  refine (load_index h).bind fun index n₁ s₁ hLe₁ hSame₁ hIndex => ?_
  have hAdd : (Gen.emit .add [index, .const (.i32 1)] : Generator LlvmValue).Does
      (processor A m d p) n₁ s₁ fun v n' s' => Holds n' s' v (.i32 (i + 1 : Nat)) ∧
        s'.mem = s₁.mem :=
    eval_does ⟨by simp, by simp, by simp⟩ (.cons hIndex.1 (.cons (.const n₁ s₁ _) .nil)) (by
      show some (Datum.i32 (Dtype.int32.wrap ((i : Int) + 1))) = _
      rw [show (i : Int) + 1 = (i + 1 : Nat) from rfl, wrap_int32 hSmall])
  refine hAdd.bind fun next n₂ s₂ hLe₂ hSame₂ hNext => ?_
  have hRound := (h.mono hSame₁ hLe₁ hIndex.2).mono hSame₂ hLe₂ hNext.2
  refine (store_does ⟨slots ++ [some (.i32 (i + 1 : Nat))], out⟩ hNext.1 hRound.index ?_).bind
    fun _ n₃ s₃ hLe₃ hSame₃ hStored => ?_
  · rw [hRound.mem]
    simp [Llvm.store]
  · exact .pure ⟨hRound.index.mono hSame₃ hLe₃, hStored⟩

/-! ## The body -/

/-- The values of the operands at an element of the block. -/
def operandValue (m : Machine) (d : Dtype) (p : EvalPparams) (vars : List String) (i : Nat) :
    String → Option Num :=
  hashtableGet ((vars.zip p.inputs).map fun x => (x.1, loadElement m d x.2 i))

/-- A stack variable of an operand. -/
def Reaches (slots : List (Option Datum)) (n : Nat) (s : State Datum Memory)
    (x : String × LlvmValue) (y : String × Pointer) : Prop :=
  x.1 = y.1 ∧ ∃ j, Holds n s x.2 (.ptr (.slot j)) ∧ slots[j]? = some (some (.ptr (.input y.2 0)))

/-- The element of an operand that has been loaded. -/
def Loaded (m : Machine) (d : Dtype) (i n : Nat) (s : State Datum Memory)
    (x : String × LlvmValue) (y : String × Pointer) : Prop :=
  x.1 = y.1 ∧ Holds n s x.2 (.num (loadElement m d y.2 i))

theorem load_input {mem : Memory} (q : Pointer) (i : Nat) :
    Llvm.load m d p mem (.input q i) = some (.num (loadElement m d q i)) := by
  show (if 0 ≤ (i : Int) then some (Datum.num (loadElement m d q i)) else none) = _
  rw [if_pos (Int.natCast_nonneg i)]

theorem store_output {mem : Memory} (x : Num) (i : Nat) :
    Llvm.store d mem (.num x) (.output i) =
      some ⟨mem.slots, Function.update mem.out i (x.cell d)⟩ := by
  show (if 0 ≤ (i : Int) then some (Memory.mk mem.slots (Function.update mem.out i (x.cell d)))
    else none) = _
  rw [if_pos (Int.natCast_nonneg i)]

theorem loadInput_does {index : LlvmValue} {i : Nat} (hIndex : Holds n s index (.i32 i))
    {x : String × LlvmValue} {y : String × Pointer} (h : Reaches s.mem.slots n s x y) :
    (loadInput index x).Does (processor A m d p) n s fun r n' s' =>
      Loaded m d i n' s' r y ∧ s'.mem = s.mem := by
  obtain ⟨hName, j, hSlot, hPtr⟩ := h
  refine (load_does hSlot (w := .ptr (.input y.2 0)) ?_).bind fun v n₁ s₁ hLe₁ hSame₁ hv => ?_
  · show s.mem.slots[j]?.join = _
    rw [hPtr]
    rfl
  have hAddr : (Gen.emit .gep [v, index] : Generator LlvmValue).Does (processor A m d p) n₁ s₁
      fun v n' s' => Holds n' s' v (.ptr (.input y.2 i)) ∧ s'.mem = s₁.mem :=
    eval_does ⟨by simp, by simp, by simp⟩ (.cons hv.1 (.cons (hIndex.mono hSame₁ hLe₁) .nil)) (by
      show some (Datum.ptr (.input y.2 (0 + (i : Int)))) = _
      rw [Int.zero_add])
  refine hAddr.bind fun addr n₂ s₂ hLe₂ hSame₂ hAddr => ?_
  refine (load_does hAddr.1 (w := .num (loadElement m d y.2 i)) ?_).bind
    fun val n₃ s₃ hLe₃ hSame₃ hVal => ?_
  · exact load_input y.2 i
  · exact .pure ⟨⟨hName, hVal.1⟩, hVal.2.trans (hAddr.2.trans hv.2)⟩

/-- The loop over the operands in the body. -/
def InputsLoaded (m : Machine) (d : Dtype) (all : List (String × Pointer)) (index : LlvmValue)
    (i : Nat) (mem : Memory) (left done : List (String × LlvmValue)) (n : Nat)
    (s : State Datum Memory) : Prop :=
  s.mem = mem ∧ Holds n s index (.i32 i) ∧ ∃ ys zs, all = ys ++ zs ∧
    List.Forall₂ (Loaded m d i n s) done ys ∧ List.Forall₂ (Reaches mem.slots n s) left zs

theorem loadInput_loaded {all : List (String × Pointer)} {index : LlvmValue} {i : Nat}
    {mem : Memory} (x : String × LlvmValue) (left done : List (String × LlvmValue)) (n : Nat)
    (s : State Datum Memory) (h : InputsLoaded m d all index i mem (x :: left) done n s) :
    (loadInput index x).Does (processor A m d p) n s fun r n' s' =>
      InputsLoaded m d all index i mem left (done ++ [r]) n' s' := by
  obtain ⟨hMem, hIndex, ys, zs, hAll, hDone, hLeft⟩ := h
  cases hLeft with
  | @cons _ y _ zs hx hLeft =>
    rw [← hMem] at hx
    refine (loadInput_does hIndex hx).mono fun r n' s' hLe hSame hr => ?_
    refine ⟨hr.2.trans hMem, hIndex.mono hSame hLe, ys ++ [y], zs, ?_, ?_, ?_⟩
    · rw [hAll, List.append_assoc]
      rfl
    · refine List.rel_append (hDone.imp fun _ _ hz => ⟨hz.1, hz.2.mono hSame hLe⟩) (.cons hr.1 .nil)
    · exact hLeft.imp fun _ _ ⟨hName, j, hSlot, hPtr⟩ => ⟨hName, j, hSlot.mono hSame hLe, hPtr⟩

theorem forall₂_zip {α β γ : Type} {R : α → β → Prop} {as : List α} {bs : List β} (names : List γ)
    (h : List.Forall₂ R as bs) :
    List.Forall₂ (fun x y => x.1 = y.1 ∧ R x.2 y.2) (names.zip as) (names.zip bs) := by
  induction h generalizing names with
  | nil => simp
  | cons hFirst _ ih =>
    cases names with
    | nil => exact .nil
    | cons name names => exact .cons ⟨rfl, hFirst⟩ (ih names)

theorem InputsAt.reaches {ps : List Pointer} {vs : List LlvmValue} {k : Nat}
    (h : List.Forall₂ (fun v (x : Pointer × Nat) => Holds n s v (.ptr (.slot x.2))) vs (ps.zipIdx k))
    (hSlots : ∀ i q, ps[i]? = some q → slots[k + i]? = some (some (.ptr (.input q 0)))) :
    List.Forall₂ (fun v q => ∃ j, Holds n s v (.ptr (.slot j)) ∧
      slots[j]? = some (some (.ptr (.input q 0)))) vs ps := by
  induction ps generalizing vs k with
  | nil =>
    cases h
    exact .nil
  | cons q ps ih =>
    rw [List.zipIdx_cons] at h
    cases h with
    | cons hFirst hRest =>
      refine .cons ⟨k, hFirst, hSlots 0 q rfl⟩ (ih hRest fun i r hr => ?_)
      rw [Nat.add_right_comm]
      exact hSlots (i + 1) r hr

/-- The stack variables of the operands have the names of the operands. -/
theorem reaches_all {localOutput : LlvmValue} {localInputs : List LlvmValue} (vars : List String)
    (hLocals : Locals p localOutput localInputs n s) (rest : List (Option Datum)) :
    List.Forall₂ (Reaches (frame p ++ rest) n s) (vars.zip localInputs) (vars.zip p.inputs) := by
  refine forall₂_zip vars (InputsAt.reaches hLocals.inputs fun i q hq => ?_)
  obtain ⟨hLess, -⟩ := List.getElem?_eq_some_iff.mp hq
  rw [List.getElem?_append_left (by simp [frame, inputSlots]; omega), frame, Nat.add_comm,
    List.getElem?_cons_succ, inputSlots, List.getElem?_map, hq]
  rfl

/-- A key has values of the same kind in two tables with the same keys. -/
theorem hashtableGet_forall₂ {α β : Type} {R : α → β → Prop} {xs : List (String × α)}
    {ys : List (String × β)} (h : List.Forall₂ (fun x y => x.1 = y.1 ∧ R x.2 y.2) xs ys)
    {key : String} {a : α} (ha : hashtableGet xs key = some a) :
    ∃ b, hashtableGet ys key = some b ∧ R a b := by
  have hReverse := List.rel_reverse h
  unfold hashtableGet at ha ⊢
  generalize xs.reverse = xs' at ha hReverse
  generalize ys.reverse = ys' at hReverse ⊢
  induction hReverse with
  | nil => cases ha
  | @cons x y xs ys hFirst _ ih =>
    rw [List.lookup_cons] at ha ⊢
    rw [← hFirst.1]
    split at ha
    · cases ha
      exact ⟨y.2, rfl, hFirst.2⟩
    · exact ih ha

/-- A round stores the value of the tree for the elements of the operands. -/
theorem loopBody_yields {localOutput indexAddr : LlvmValue} {localInputs : List LlvmValue}
    {vars : List String} {expression : TeExpr} {i : Nat}
    (hLocals : Locals p localOutput localInputs n s)
    (h : InRound (frame p) indexAddr i n s out) :
    (loopBody A d localOutput localInputs indexAddr vars expression).Yields (processor A m d p) n s
      (expression.eval A d (operandValue m d p vars i)) fun _ x n' s' =>
        InRound (frame p) indexAddr i n' s' (Function.update out i (x.cell d)) := by
  refine (load_index h).yields fun index n₁ s₁ hLe₁ hSame₁ hIndex => ?_
  have hLocals₁ := hLocals.mono hSame₁ hLe₁
  have hRound₁ := h.mono hSame₁ hLe₁ hIndex.2
  have hReaches := reaches_all vars hLocals₁ [some (.i32 i)]
  have hSlots : s₁.mem.slots = frame p ++ [some (.i32 i)] := congrArg Memory.slots hRound₁.mem
  rw [← hSlots] at hReaches
  refine (Gen.Does.each (fun x left done n s => loadInput_loaded x left done n s) _ []
    ⟨rfl, hIndex.1, [], _, rfl, .nil, hReaches⟩).yields fun params n₂ s₂ hLe₂ hSame₂ hParams => ?_
  obtain ⟨hMem₂, hIndex₂, ys, zs, hAll, hLoaded, hNone⟩ := hParams
  cases hNone
  rw [List.append_nil] at hAll
  rw [List.nil_append, ← hAll] at hLoaded
  have hBound : Bound params (operandValue m d p vars i) n₂ s₂ := by
    intro name v hv
    have hLoaded : List.Forall₂ (fun x y => x.1 = y.1 ∧ Holds n₂ s₂ x.2 (.num y.2)) params
        ((vars.zip p.inputs).map fun x => (x.1, loadElement m d x.2 i)) :=
      List.forall₂_map_right_iff.mpr hLoaded
    exact hashtableGet_forall₂ (R := fun v x => Holds n₂ s₂ v (.num x)) hLoaded hv
  rw [← Option.bind_fun_some (expression.eval A d (operandValue m d p vars i))]
  refine (compileExpression_yields expression hBound).bind
    fun result x n₃ s₃ _ hLe₃ hSame₃ hResult => .of_does ?_
  have hLocals₃ := (hLocals₁.mono hSame₂ hLe₂).mono hSame₃ hLe₃
  have hRound₃ := (hRound₁.mono hSame₂ hLe₂ hMem₂).mono hSame₃ hLe₃ hResult.2
  refine (load_does hLocals₃.output (w := .ptr (.output 0)) ?_).bind
    fun o n₄ s₄ hLe₄ hSame₄ ho => ?_
  · show s₃.mem.slots[0]?.join = _
    rw [hRound₃.mem]
    rfl
  have hIndex₄ := (hIndex₂.mono hSame₃ hLe₃).mono hSame₄ hLe₄
  have hAddr : (Gen.emit .gep [o, index] : Generator LlvmValue).Does (processor A m d p) n₄ s₄
      fun v n' s' => Holds n' s' v (.ptr (.output i)) ∧ s'.mem = s₄.mem :=
    eval_does ⟨by simp, by simp, by simp⟩ (.cons ho.1 (.cons hIndex₄ .nil)) (by
      show some (Datum.ptr (.output (0 + (i : Int)))) = _
      rw [Int.zero_add])
  refine hAddr.bind fun addr n₅ s₅ hLe₅ hSame₅ hAddr => ?_
  have hRound₅ := (hRound₃.mono hSame₄ hLe₄ ho.2).mono hSame₅ hLe₅ hAddr.2
  have hResult₅ := (hResult.1.mono hSame₄ hLe₄).mono hSame₅ hLe₅
  refine (store_does ⟨frame p ++ [some (.i32 i)], Function.update out i (x.cell d)⟩ hResult₅
    hAddr.1 ?_).bind
    fun _ n₆ s₆ hLe₆ hSame₆ hStored => ?_
  · rw [hRound₅.mem]
    exact store_output x i
  · exact .pure ⟨hRound₅.index.mono hSame₆ hLe₆, hStored⟩

end Sections

/-! ## The function -/

/-- The sections of a compiled function, with the registers that they begin at. -/
structure Sections (A : Arithmetic) (d : Dtype) (expression : TeExpr) (vars : List String) where
  localOutput : LlvmValue
  localInputs : List LlvmValue
  len : LlvmValue
  indexAddr : LlvmValue
  cond : LlvmValue
  stackVars : List (Instr Op Datum)
  loopLen : List (Instr Op Datum)
  entry : List (Instr Op Datum)
  condition : List (Instr Op Datum)
  body : List (Instr Op Datum)
  increment : List (Instr Op Datum)
  n₁ : Nat
  n₂ : Nat
  n₃ : Nat
  n₄ : Nat
  n₅ : Nat
  eq₁ : n₁ = 0 + stackVars.length
  eq₂ : n₂ = n₁ + loopLen.length
  eq₃ : n₃ = n₂ + entry.length
  eq₄ : n₄ = n₃ + condition.length
  eq₅ : n₅ = n₄ + body.length
  stackVars_eq : IronArray.stackVars vars.length 0 = some ((localOutput, localInputs), stackVars)
  loopLen_eq : IronArray.loopLen n₁ = some (len, loopLen)
  entry_eq : loopEntry n₂ = some (indexAddr, entry)
  condition_eq : loopCondition indexAddr len n₃ = some (cond, condition)
  body_eq : loopBody A d localOutput localInputs indexAddr vars expression n₄ = some ((), body)
  increment_eq : loopIncrement indexAddr n₅ = some ((), increment)

namespace Sections

variable {A : Arithmetic} {d : Dtype} {expression : TeExpr} {vars : List String}

/-- The blocks of the function. -/
def code (S : Sections A d expression vars) : List (Block Op Datum) :=
  [⟨S.stackVars, .br 1⟩, ⟨S.loopLen, .br 2⟩, ⟨S.entry, .br 3⟩,
    ⟨S.condition, .condBr S.cond 4 6⟩, ⟨S.body, .br 5⟩, ⟨S.increment, .br 3⟩,
    ⟨[], .ret (.const (.i32 0))⟩]

theorem of_compileFunction {code : List (Block Op Datum)}
    (h : compileFunction A d expression vars = some code) :
    ∃ S : Sections A d expression vars, S.code = code := by
  unfold compileFunction at h
  split at h
  · cases h
  · obtain ⟨⟨⟨localOutput, localInputs⟩, stackVars⟩, h₁, h⟩ := Option.bind_eq_some_iff.mp h
    obtain ⟨⟨len, loopLen⟩, h₂, h⟩ := Option.bind_eq_some_iff.mp h
    obtain ⟨⟨indexAddr, entry⟩, h₃, h⟩ := Option.bind_eq_some_iff.mp h
    obtain ⟨⟨cond, condition⟩, h₄, h⟩ := Option.bind_eq_some_iff.mp h
    obtain ⟨⟨⟨⟩, body⟩, h₅, h⟩ := Option.bind_eq_some_iff.mp h
    obtain ⟨⟨⟨⟩, increment⟩, h₆, h⟩ := Option.bind_eq_some_iff.mp h
    cases h
    exact ⟨⟨localOutput, localInputs, len, indexAddr, cond, stackVars, loopLen, entry, condition,
      body, increment, _, _, _, _, _, (Nat.zero_add _).symm, rfl, rfl, rfl, rfl, h₁, h₂, h₃, h₄, h₅,
      h₆⟩, rfl⟩

section Run

variable {m : Machine} {p : EvalPparams} {N : Nat} {out : Nat → Cell}
  (S : Sections A d expression vars)

/-- The output behind `i` rounds. -/
def written (values : Nat → Option Num) (d : Dtype) (out : Nat → Cell) (i : Nat) : Nat → Cell :=
  fun k => if k < i then ((values k).map (Num.cell d)).getD (out k) else out k

theorem written_succ {values : Nat → Option Num} {i : Nat} {x : Num} (h : values i = some x) :
    written values d out (i + 1) = Function.update (written values d out i) i (x.cell d) := by
  funext k
  by_cases hk : k = i
  · subst hk
    rw [Function.update_self, written, if_pos (Nat.lt_succ_self k), h]
    rfl
  · rw [Function.update_of_ne hk]
    by_cases hLess : k < i
    · rw [written, written, if_pos hLess, if_pos (Nat.lt_succ_of_lt hLess)]
    · rw [written, written, if_neg hLess, if_neg (by omega)]

theorem written_lt {values : Nat → Option Num} {i k : Nat} {x : Num} (hk : k < i)
    (h : values k = some x) : written values d out i k = x.cell d := by
  rw [written, if_pos hk, h]
  rfl

/-- The state in front of the condition in round `i`. -/
structure AtCondition (m : Machine) (p : EvalPparams) (out : Nat → Cell) (N i : Nat)
    (s : State Datum Memory) : Prop where
  locals : Locals p S.localOutput S.localInputs S.n₃ s
  len : Holds S.n₃ s S.len (.i32 N)
  round : InRound (frame p) S.indexAddr i S.n₃ s
    (written (fun i => expression.eval A d (operandValue m d p vars i)) d out i)

theorem run_entry (out : Nat → Cell) (hInputs : p.inputs.length = vars.length) (h : BlockOf p N)
    (hType : p.outTypesize < 2 ^ 31) : ∃ s, AtCondition S m p out N 0 s ∧
      ∀ r, Returns (processor A m d p) S.code 0 (callState out) r ↔
        Returns (processor A m d p) S.code 3 s r := by
  obtain ⟨s₁, hRun₁, -, hLocals, hMem₁⟩ := stackVars_does (A := A) (m := m) (d := d) (p := p)
    (n := 0) (s := callState out) (show (callState out).mem = ⟨[], out⟩ from rfl) _ _
    (hInputs ▸ S.stackVars_eq)
  rw [← S.eq₁] at hLocals
  obtain ⟨s₂, hRun₂, hSame₂, hLen, hMem₂⟩ := loopLen_does (A := A) (m := m) (d := d) (n := S.n₁)
    (s := s₁) h hType _ _ S.loopLen_eq
  rw [← S.eq₂] at hLen
  obtain ⟨s₃, hRun₃, hSame₃, hIndex, hMem₃⟩ := loopEntry_does (A := A) (m := m) (d := d) (p := p)
    (n := S.n₂) (hMem₂.trans hMem₁) _ _ S.entry_eq
  rw [← S.eq₃] at hIndex
  have hLe₂ : S.n₁ ≤ S.n₂ := by rw [S.eq₂]; exact Nat.le_add_right _ _
  have hLe₃ : S.n₂ ≤ S.n₃ := by rw [S.eq₃]; exact Nat.le_add_right _ _
  refine ⟨s₃, ⟨(hLocals.mono hSame₂ hLe₂).mono hSame₃ hLe₃, hLen.mono hSame₃ hLe₃, hIndex, hMem₃⟩,
    fun r => ?_⟩
  rw [Returns.br ⟨S.stackVars, .br 1⟩ rfl hRun₁ rfl,
    Returns.br ⟨S.loopLen, .br 2⟩ rfl hRun₂ rfl,
    Returns.br ⟨S.entry, .br 3⟩ rfl hRun₃ rfl]

theorem n₃_le : S.n₃ ≤ S.n₄ ∧ S.n₄ ≤ S.n₅ := by
  have h₄ := S.eq₄
  have h₅ := S.eq₅
  omega

variable {i : Nat} {s : State Datum Memory}

/-- The condition leads to the body or to the end. -/
theorem run_condition (h : AtCondition S m p out N i s) : ∃ s',
    (Locals p S.localOutput S.localInputs S.n₄ s' ∧ Holds S.n₄ s' S.len (.i32 N) ∧
      SameBelow S.n₃ s s' ∧ InRound (frame p) S.indexAddr i S.n₄ s'
        (written (fun i => expression.eval A d (operandValue m d p vars i)) d out i)) ∧
    ∀ r, Returns (processor A m d p) S.code 3 s r ↔
      Returns (processor A m d p) S.code (if i < N then 4 else 6) s' r := by
  obtain ⟨s', hRun, hSame, hCond, hMem⟩ := loopCondition_does (A := A) (m := m) (d := d) (p := p)
    h.round h.len _ _ S.condition_eq
  have hLe := S.n₃_le.1
  refine ⟨s', ⟨h.locals.mono hSame hLe, h.len.mono hSame hLe, hSame, h.round.mono hSame hLe hMem⟩,
    fun r => ?_⟩
  rw [Returns.condBr ⟨S.condition, .condBr S.cond 4 6⟩ rfl hRun rfl hCond.1 rfl]
  simp

/-- A round in which the tree has a value. -/
theorem run_round (hSmall : N < 2 ^ 31) (hi : i < N) (h : AtCondition S m p out N i s)
    (hGood : (expression.eval A d (operandValue m d p vars i)).isSome) :
    ∃ s', AtCondition S m p out N (i + 1) s' ∧
      ∀ r, Returns (processor A m d p) S.code 3 s r ↔
        Returns (processor A m d p) S.code 3 s' r := by
  obtain ⟨x, hx⟩ := Option.isSome_iff_exists.mp hGood
  obtain ⟨s₁, ⟨hLocals₁, hLen₁, hSame₁, hRound₁⟩, hFirst⟩ := S.run_condition h
  obtain ⟨s₂, hRun₂, hSame₂, hRound₂⟩ :=
    (loopBody_yields (A := A) (m := m) hLocals₁ hRound₁).1 x hx _ _ S.body_eq
  rw [← S.eq₅] at hRound₂
  obtain ⟨s₃, hRun₃, hSame₃, hRound₃⟩ := loopIncrement_does (A := A) (m := m) (d := d) (p := p)
    (by omega) hRound₂ _ _ S.increment_eq
  have hSame : SameBelow S.n₃ s s₃ :=
    (hSame₁.trans hSame₂ S.n₃_le.1).trans hSame₃ (S.n₃_le.1.trans S.n₃_le.2)
  refine ⟨s₃, ⟨h.locals.mono hSame (Nat.le_refl _), h.len.mono hSame (Nat.le_refl _),
    h.round.index.mono hSame (Nat.le_refl _), ?_⟩, fun r => ?_⟩
  · rw [hRound₃.mem, written_succ hx]
  · rw [hFirst, if_pos hi, Returns.br ⟨S.body, .br 5⟩ rfl hRun₂ rfl,
      Returns.br ⟨S.increment, .br 3⟩ rfl hRun₃ rfl]

/-- A round in which the tree has no value. -/
theorem run_stuck (hi : i < N) (h : AtCondition S m p out N i s)
    (hBad : ¬ (expression.eval A d (operandValue m d p vars i)).isSome)
    (r : Datum × State Datum Memory) :
    ¬ Returns (processor A m d p) S.code 3 s r := by
  obtain ⟨s₁, ⟨hLocals₁, hLen₁, hSame₁, hRound₁⟩, hFirst⟩ := S.run_condition h
  rw [hFirst, if_pos hi]
  apply Returns.stuck ⟨S.body, .br 5⟩ rfl
  exact (loopBody_yields (A := A) (m := m) hLocals₁ hRound₁).2 (by simpa using hBad) _ _ S.body_eq

theorem run_end (h : AtCondition S m p out N N s) : ∃ s', s'.mem.out =
    written (fun i => expression.eval A d (operandValue m d p vars i)) d out N ∧
    ∀ r, Returns (processor A m d p) S.code 3 s r ↔ r = (.i32 0, s') := by
  obtain ⟨s₁, ⟨-, -, -, hRound₁⟩, hFirst⟩ := S.run_condition h
  refine ⟨s₁, by rw [hRound₁.mem], fun r => ?_⟩
  rw [hFirst, if_neg (Nat.lt_irrefl N)]
  exact Returns.ret ⟨[], .ret (.const (.i32 0))⟩ rfl rfl rfl rfl

/-- The whole run, if the tree has a value at every element. -/
theorem run_values (out : Nat → Cell) (hInputs : p.inputs.length = vars.length)
    (hBlock : BlockOf p N) (hType : p.outTypesize < 2 ^ 31)
    (hGood : ∀ i < N, (expression.eval A d (operandValue m d p vars i)).isSome) :
    ∃ s', s'.mem.out =
      written (fun i => expression.eval A d (operandValue m d p vars i)) d out N ∧
      ∀ r, Returns (processor A m d p) S.code 0 (callState out) r ↔ r = (.i32 0, s') := by
  have hSmall : N < 2 ^ 31 := hBlock.le_size.trans_lt hBlock.small
  obtain ⟨s, hStart, hEntry⟩ := S.run_entry (m := m) out hInputs hBlock hType
  obtain ⟨s', hEnd, hSame⟩ := (returns_loop (S.AtCondition m p out N)
    (fun i s hi h hGood => S.run_round hSmall hi h hGood)
    (fun i s hi h hBad => S.run_stuck hi h hBad) hStart).1 hGood
  obtain ⟨s'', hOut, hLast⟩ := S.run_end hEnd
  exact ⟨s'', hOut, fun r => (hEntry r).trans ((hSame r).trans (hLast r))⟩

/-- There is no run past an element at which the tree has no value. -/
theorem run_valueless (out : Nat → Cell) (hInputs : p.inputs.length = vars.length)
    (hBlock : BlockOf p N) (hType : p.outTypesize < 2 ^ 31) (hi : i < N)
    (hBad : ¬ (expression.eval A d (operandValue m d p vars i)).isSome)
    (r : Datum × State Datum Memory) :
    ¬ Returns (processor A m d p) S.code 0 (callState out) r := by
  have hSmall : N < 2 ^ 31 := hBlock.le_size.trans_lt hBlock.small
  obtain ⟨s, hStart, hEntry⟩ := S.run_entry (m := m) out hInputs hBlock hType
  rw [hEntry]
  exact (returns_loop (S.AtCondition m p out N)
    (fun i s hi h hGood => S.run_round hSmall hi h hGood)
    (fun i s hi h hBad => S.run_stuck hi h hBad) hStart).2 ⟨i, hi, hBad⟩ r

end Run

end Sections

/-- A compiled function returns exactly if the expression has a value at every element of the block.
Then it returns zero and has stored the values, and the rest of the output is as before. -/
theorem compileFunction_returns {A : Arithmetic} {m : Machine} {d : Dtype} {expression : TeExpr}
    {vars : List String} {code : List (Block Op Datum)}
    (hCode : compileFunction A d expression vars = some code) {p : EvalPparams}
    (hInputs : p.inputs.length = vars.length) {N : Nat} (hBlock : BlockOf p N)
    (hType : p.outTypesize < 2 ^ 31) (out : Nat → Cell) :
    ((∃ r, Returns (processor A m d p) code 0 (callState out) r) ↔
      ∀ i < N, (expression.eval A d (operandValue m d p vars i)).isSome) ∧
    ∀ r, Returns (processor A m d p) code 0 (callState out) r → r.1 = .i32 0 ∧
      (∀ i < N, ∃ x, expression.eval A d (operandValue m d p vars i) = some x ∧
        r.2.mem.out i = x.cell d) ∧
      ∀ i, N ≤ i → r.2.mem.out i = out i := by
  obtain ⟨S, rfl⟩ := Sections.of_compileFunction hCode
  by_cases hGood : ∀ i < N, (expression.eval A d (operandValue m d p vars i)).isSome
  · obtain ⟨s, hOut, hReturns⟩ := S.run_values out hInputs hBlock hType hGood
    refine ⟨⟨fun _ => hGood, fun _ => ⟨_, (hReturns _).mpr rfl⟩⟩, fun r hr => ?_⟩
    rw [(hReturns r).mp hr]
    refine ⟨rfl, fun i hi => ?_, fun i hi => ?_⟩
    · obtain ⟨x, hx⟩ := Option.isSome_iff_exists.mp (hGood i hi)
      exact ⟨x, hx, by rw [hOut, Sections.written_lt hi hx]⟩
    · rw [hOut, Sections.written, if_neg (by omega)]
  · have hNone : ∀ r, ¬ Returns (processor A m d p) S.code 0 (callState out) r := by
      push Not at hGood
      obtain ⟨i, hi, hBad⟩ := hGood
      exact S.run_valueless out hInputs hBlock hType hi (by simpa using hBad)
    exact ⟨⟨fun ⟨r, hr⟩ => absurd hr (hNone r), fun h => absurd h hGood⟩,
      fun r hr => absurd hr (hNone r)⟩

namespace LoopExample

/-- Exact sums. -/
def arithmetic : Arithmetic where
  constant _ x := x
  real
    | _, .add, [.fin a, .fin b] => .fin (a + b)
    | _, _, _ => .nan
  udf _ _ := none

/-- The expression `x + y`. -/
def sum : TeExpr := .teFunction .add [.teVariable "x", .teVariable "y"]

/-- Two blocks of three doubles. -/
def params : EvalPparams where
  inputs := [⟨.double, fun k => .real (.fin k), 0⟩,
    ⟨.double, fun k => .real (.fin (10 * k : Nat)), 0⟩]
  inputTypesizes := [8, 8]
  outSize := 24
  outTypesize := 8
  ndim := 1
  window := ⟨[0], [3], [1]⟩
  userParams := []

def machine : Machine := ⟨fun _ _ c => c, fun _ _ => 0, id, .fin⟩

theorem sum_value : sum.eval arithmetic .double (operandValue machine .double params ["x", "y"] 2) =
    some (.fp (.fin 22)) := by
  have hSum : sum.eval arithmetic .double (operandValue machine .double params ["x", "y"] 2) =
      some (.fp (.fin ((2 : Nat) + (20 : Nat)))) := rfl
  rw [hSum]
  norm_num

end LoopExample

open LoopExample in
/-- The third element of a sum of two blocks. -/
theorem compileFunction_returns_sum : ∃ code r,
    compileFunction arithmetic .double sum ["x", "y"] = some code ∧
      Returns (processor arithmetic machine .double params) code 0 (callState fun _ => .bits 0) r ∧
      r.1 = .i32 0 ∧ r.2.mem.out 2 = .real (.fin 22) ∧ r.2.mem.out 3 = .bits 0 := by
  obtain ⟨code, hCode⟩ := Option.isSome_iff_exists.mp
    (show (compileFunction arithmetic .double sum ["x", "y"]).isSome by decide +kernel)
  have hBlock : BlockOf params 3 := ⟨rfl, by decide, by decide⟩
  obtain ⟨hReturns, hValues⟩ := compileFunction_returns (m := machine) hCode (p := params) rfl hBlock
    (by decide) fun _ => .bits 0
  obtain ⟨r, hr⟩ := hReturns.mpr (by decide +kernel)
  obtain ⟨hZero, hStored, hRest⟩ := hValues r hr
  obtain ⟨x, hx, hCell⟩ := hStored 2 (by decide)
  cases hx.symm.trans sum_value
  exact ⟨code, r, hCode, hr, hZero, hCell, hRest 3 (by decide)⟩

end IronArray
