import Mathlib.Data.List.Forall2
import Mathlib.Data.Nat.Find
import Mathlib.Logic.Function.Basic

/-!
# Code in basic blocks

Instructions that write registers and change memory, in blocks that end in a branch or a return. What
the operations do is a parameter. A generator emits instructions with fresh registers; `Gen.Does`
says what they do from a state, and its rules follow the generator. `Returns` is the meaning of the
code from a block on; `returns_loop` is the rule for a loop whose rounds may get stuck.
-/

namespace Ssa

variable {Op V M α β : Type}

/-- What an instruction computes with. -/
inductive Value (V : Type)
  | reg (r : Nat)
  | const (v : V)

/-- An instruction. Every instruction has a register of its own. -/
structure Instr (Op V : Type) where
  dest : Nat
  op : Op
  args : List (Value V)

/-- The end of a block. -/
inductive Terminator (V : Type)
  | br (target : Nat)
  | condBr (cond : Value V) (ifTrue ifFalse : Nat)
  | ret (value : Value V)

structure Block (Op V : Type) where
  instrs : List (Instr Op V)
  terminator : Terminator V

/-- What operations do. They may be stuck. -/
structure Processor (Op V M : Type) where
  exec : Op → List V → M → Option (V × M)
  truth : V → Option Bool

structure State (V M : Type) where
  regs : Nat → Option V
  mem : M

/-! ## Execution -/

def Value.eval (s : State V M) : Value V → Option V
  | reg r => s.regs r
  | const v => some v

variable (P : Processor Op V M)

def Instr.step (s : State V M) (i : Instr Op V) : Option (State V M) := do
  let args ← i.args.mapM (Value.eval s)
  let (v, mem) ← P.exec i.op args s.mem
  some ⟨Function.update s.regs i.dest (some v), mem⟩

/-- Instructions one after the other. -/
def run (is : List (Instr Op V)) (s : State V M) : Option (State V M) :=
  is.foldlM (Instr.step P) s

/-- The code from a block on, for a number of blocks. -/
def goto (code : List (Block Op V)) : Nat → Nat → State V M → Option (V × State V M)
  | 0, _, _ => none
  | rounds + 1, label, s => do
    let block ← code[label]?
    let s ← run P block.instrs s
    match block.terminator with
    | .br target => goto code rounds target s
    | .condBr cond ifTrue ifFalse => do
      let v ← cond.eval s
      let b ← P.truth v
      goto code rounds (if b then ifTrue else ifFalse) s
    | .ret value => do
      let v ← value.eval s
      some (v, s)

/-- The code from a block on returns. -/
def Returns (code : List (Block Op V)) (label : Nat) (s : State V M) (r : V × State V M) : Prop :=
  ∃ rounds, goto P code rounds label s = some r

variable {P}

theorem run_append (is js : List (Instr Op V)) (s : State V M) :
    run P (is ++ js) s = (run P is s).bind (run P js) := by
  rw [run, List.foldlM_append]
  rfl

/-- More rounds do not change what the code returns. -/
theorem goto_succ {code : List (Block Op V)} {rounds label : Nat} {s : State V M}
    {r : V × State V M} (h : goto P code rounds label s = some r) :
    goto P code (rounds + 1) label s = some r := by
  induction rounds generalizing label s with
  | zero => cases h
  | succ rounds ih =>
    rw [goto] at h ⊢
    obtain ⟨block, hBlock, h⟩ := Option.bind_eq_some_iff.mp h
    obtain ⟨s', hRun, h⟩ := Option.bind_eq_some_iff.mp h
    refine Option.bind_eq_some_iff.mpr ⟨block, hBlock, ?_⟩
    refine Option.bind_eq_some_iff.mpr ⟨s', hRun, ?_⟩
    cases hEnd : block.terminator with
    | br target =>
      rw [hEnd] at h
      exact ih h
    | condBr cond ifTrue ifFalse =>
      rw [hEnd] at h
      obtain ⟨v, hv, h⟩ := Option.bind_eq_some_iff.mp h
      obtain ⟨b, hb, h⟩ := Option.bind_eq_some_iff.mp h
      refine Option.bind_eq_some_iff.mpr ⟨v, hv, ?_⟩
      exact Option.bind_eq_some_iff.mpr ⟨b, hb, ih h⟩
    | ret value =>
      rw [hEnd] at h
      exact h

theorem goto_mono {code : List (Block Op V)} {rounds rounds' label : Nat} {s : State V M}
    {r : V × State V M} (hLe : rounds ≤ rounds') (h : goto P code rounds label s = some r) :
    goto P code rounds' label s = some r := by
  induction hLe with
  | refl => exact h
  | step _ ih => exact goto_succ ih

namespace Returns

variable {code : List (Block Op V)} {label target ifTrue ifFalse : Nat} {s s' : State V M}
  {cond value : Value V} {r r' : V × State V M}

theorem unique (h : Returns P code label s r) (h' : Returns P code label s r') : r = r' := by
  obtain ⟨rounds, h⟩ := h
  obtain ⟨rounds', h'⟩ := h'
  have hMax := goto_mono (le_max_left rounds rounds') h
  rw [goto_mono (le_max_right rounds rounds') h'] at hMax
  exact (Option.some.inj hMax).symm

/-- What the code returns behind the instructions of a block. -/
theorem iff_succ : Returns P code label s r ↔ ∃ rounds, goto P code (rounds + 1) label s = some r :=
  ⟨fun ⟨rounds, h⟩ => ⟨rounds, goto_succ h⟩, fun ⟨rounds, h⟩ => ⟨rounds + 1, h⟩⟩

variable (block : Block Op V)

theorem stuck (hBlock : code[label]? = some block) (hRun : run P block.instrs s = none) :
    ¬ Returns P code label s r := by
  rintro ⟨rounds, h⟩
  cases rounds with
  | zero => cases h
  | succ rounds => simp [goto, hBlock, hRun] at h

theorem br (hBlock : code[label]? = some block) (hRun : run P block.instrs s = some s')
    (hEnd : block.terminator = .br target) :
    Returns P code label s r ↔ Returns P code target s' r := by
  rw [iff_succ]
  simp only [goto, hBlock, hRun, hEnd, Option.bind_eq_bind, Option.bind_some]
  rfl

theorem condBr (hBlock : code[label]? = some block) (hRun : run P block.instrs s = some s')
    (hEnd : block.terminator = .condBr cond ifTrue ifFalse) {v : V} (hCond : cond.eval s' = some v)
    {b : Bool} (hTruth : P.truth v = some b) :
    Returns P code label s r ↔ Returns P code (if b then ifTrue else ifFalse) s' r := by
  rw [iff_succ]
  simp only [goto, hBlock, hRun, hEnd, hCond, hTruth, Option.bind_eq_bind, Option.bind_some]
  rfl

theorem ret (hBlock : code[label]? = some block) (hRun : run P block.instrs s = some s')
    (hEnd : block.terminator = .ret value) {v : V} (hValue : value.eval s' = some v) :
    Returns P code label s r ↔ r = (v, s') := by
  rw [iff_succ]
  simp only [goto, hBlock, hRun, hEnd, hValue, Option.bind_eq_bind, Option.bind_some,
    Option.some.injEq, exists_const]
  exact eq_comm

end Returns

/-! ## Loops -/

section Loop

variable {code : List (Block Op V)} {label n : Nat} {s : State V M} {good : Nat → Prop}

/-- A loop of `n` rounds. A good round leads to the next one, any other is stuck. -/
theorem returns_loop (inv : Nat → State V M → Prop)
    (hGood : ∀ i s, i < n → inv i s → good i → ∃ s', inv (i + 1) s' ∧
      ∀ r, Returns P code label s r ↔ Returns P code label s' r)
    (hStuck : ∀ i s, i < n → inv i s → ¬ good i → ∀ r, ¬ Returns P code label s r)
    (h : inv 0 s) :
    ((∀ i < n, good i) → ∃ s', inv n s' ∧
      ∀ r, Returns P code label s r ↔ Returns P code label s' r) ∧
    ((∃ i < n, ¬ good i) → ∀ r, ¬ Returns P code label s r) := by
  have hRounds : ∀ k ≤ n, (∀ i < k, good i) → ∃ s', inv k s' ∧
      ∀ r, Returns P code label s r ↔ Returns P code label s' r := by
    intro k hk hEach
    induction k with
    | zero => exact ⟨s, h, fun _ => Iff.rfl⟩
    | succ k ih =>
      obtain ⟨s', hInv, hSame⟩ := ih (by omega) fun i hi => hEach i (by omega)
      obtain ⟨s'', hNext, hStep⟩ := hGood k s' (by omega) hInv (hEach k (by omega))
      exact ⟨s'', hNext, fun r => (hSame r).trans (hStep r)⟩
  refine ⟨hRounds n (Nat.le_refl n), ?_⟩
  rintro ⟨i, hi, hBad⟩ r hReturns
  -- the first round that is not good
  classical
  have hSome : ∃ j, j < n ∧ ¬ good j := ⟨i, hi, hBad⟩
  have hFirst := Nat.find_spec hSome
  have hBefore : ∀ j < Nat.find hSome, good j := by
    intro j hj
    by_contra hNot
    exact Nat.find_min hSome hj ⟨Nat.lt_trans hj hFirst.1, hNot⟩
  obtain ⟨s', hInv, hSame⟩ := hRounds _ (Nat.le_of_lt hFirst.1) hBefore
  exact hStuck _ s' hFirst.1 hInv hFirst.2 r ((hSame r).mp hReturns)

end Loop

/-! ## Generators -/

/-- A generator: from the number of the next register, a result and instructions. -/
def Gen (Op V α : Type) := Nat → Option (α × List (Instr Op V))

namespace Gen

instance : Monad (Gen Op V) where
  pure a := fun _ => some (a, [])
  bind g f := fun n => do
    let (a, is) ← g n
    let (b, js) ← f a (n + is.length)
    some (b, is ++ js)

/-- The generator gives up. -/
def fail : Gen Op V α := fun _ => none

/-- What may be missing. -/
def ofOption (x : Option α) : Gen Op V α := fun _ => x.map fun a => (a, [])

/-- One more instruction. -/
def emit (op : Op) (args : List (Value V)) : Gen Op V (Value V) := fun n =>
  some (.reg n, [⟨n, op, args⟩])

/-- The generator for each element of a list. -/
def each (f : α → Gen Op V β) : List α → Gen Op V (List β)
  | [] => pure []
  | a :: as => do
    let b ← f a
    let bs ← each f as
    pure (b :: bs)

theorem bind_eq_some {g : Gen Op V α} {f : α → Gen Op V β} {n : Nat} {b : β}
    {ks : List (Instr Op V)} : (g >>= f) n = some (b, ks) ↔
      ∃ a is js, g n = some (a, is) ∧ f a (n + is.length) = some (b, js) ∧ ks = is ++ js := by
  constructor
  · intro h
    obtain ⟨⟨a, is⟩, hFirst, h⟩ := Option.bind_eq_some_iff.mp h
    obtain ⟨⟨b', js⟩, hLast, h⟩ := Option.bind_eq_some_iff.mp h
    cases h
    exact ⟨a, is, js, hFirst, hLast, rfl⟩
  · rintro ⟨a, is, js, hFirst, hLast, rfl⟩
    refine Option.bind_eq_some_iff.mpr ⟨(a, is), hFirst, ?_⟩
    exact Option.bind_eq_some_iff.mpr ⟨(b, js), hLast, rfl⟩

end Gen

namespace Gen

@[simp] theorem ofOption_some_bind (a : α) (f : α → Gen Op V β) :
    (ofOption (some a) >>= f) = f a := by
  funext n
  show ((f a n).bind fun x => some (x.1, x.2)) = _
  cases f a n <;> rfl

@[simp] theorem ofOption_none_bind (f : α → Gen Op V β) :
    ((ofOption none : Gen Op V α) >>= f) = fail := rfl

end Gen

/-! ## What a generator builds -/

namespace Gen

/-- The generator does not give up, and its operations satisfy a condition. -/
def Builds (C : Op → Prop) (g : Gen Op V α) (n : Nat) : Prop :=
  ∃ a is, g n = some (a, is) ∧ ∀ i ∈ is, C i.op

variable {C : Op → Prop} {n : Nat}

theorem builds_pure (a : α) : (Pure.pure a : Gen Op V α).Builds C n :=
  ⟨a, [], rfl, fun _ h => absurd h List.not_mem_nil⟩

theorem not_builds_fail : ¬ (fail : Gen Op V α).Builds C n := by
  rintro ⟨a, is, h, -⟩
  cases h

theorem builds_ofOption (x : Option α) : (ofOption x : Gen Op V α).Builds C n ↔ x.isSome := by
  cases x with
  | none => exact ⟨fun h => absurd h not_builds_fail, fun h => by cases h⟩
  | some a => exact ⟨fun _ => rfl, fun _ => builds_pure a⟩

theorem builds_emit (op : Op) (args : List (Value V)) :
    (emit op args : Gen Op V (Value V)).Builds C n ↔ C op := by
  constructor
  · rintro ⟨v, is, h, hAll⟩
    cases h
    exact hAll _ List.mem_cons_self
  · intro h
    refine ⟨_, _, rfl, fun i hi => ?_⟩
    rw [List.mem_singleton.mp hi]
    exact h

/-- One generator after the other, where the second one builds under a condition of its own. -/
theorem builds_bind {g : Gen Op V α} {f : α → Gen Op V β} {R : Prop}
    (h : ∀ a is, g n = some (a, is) → ((f a).Builds C (n + is.length) ↔ R)) :
    (g >>= f).Builds C n ↔ g.Builds C n ∧ R := by
  constructor
  · rintro ⟨b, ks, hGen, hAll⟩
    obtain ⟨a, is, js, hFirst, hLast, rfl⟩ := bind_eq_some.mp hGen
    refine ⟨⟨a, is, hFirst, fun i hi => hAll i (List.mem_append_left js hi)⟩, (h a is hFirst).mp ?_⟩
    exact ⟨b, js, hLast, fun i hi => hAll i (List.mem_append_right is hi)⟩
  · rintro ⟨⟨a, is, hFirst, hAll⟩, hR⟩
    obtain ⟨b, js, hLast, hRest⟩ := (h a is hFirst).mpr hR
    refine ⟨b, is ++ js, bind_eq_some.mpr ⟨a, is, js, hFirst, hLast, rfl⟩, fun i hi => ?_⟩
    exact (List.mem_append.mp hi).elim (hAll i) (hRest i)

/-- A generator in front of another one, none of which gives up. -/
theorem Builds.bind {g : Gen Op V α} {f : α → Gen Op V β} (hg : g.Builds C n)
    (hf : ∀ a is, g n = some (a, is) → (f a).Builds C (n + is.length)) : (g >>= f).Builds C n :=
  (builds_bind fun a is h => iff_of_true (hf a is h) trivial).mpr ⟨hg, trivial⟩

theorem each_builds {f : α → Gen Op V β} {as : List α} (hf : ∀ a ∈ as, ∀ n, (f a).Builds C n)
    (n : Nat) : (each f as).Builds C n := by
  induction as generalizing n with
  | nil => exact builds_pure []
  | cons a as ih =>
    refine (hf a List.mem_cons_self n).bind fun b is _ => ?_
    refine (ih (fun a' ha' => hf a' (List.mem_cons_of_mem _ ha')) _).bind fun bs js _ => ?_
    exact builds_pure _

/-- What the generator for each element gives of each element. -/
theorem each_forall₂ {f : α → Gen Op V β} {R : α → β → Prop}
    (hf : ∀ a n b is, f a n = some (b, is) → R a b) {as : List α} {n : Nat} {bs : List β}
    {is : List (Instr Op V)} (h : each f as n = some (bs, is)) : List.Forall₂ R as bs := by
  induction as generalizing n bs is with
  | nil =>
    cases h
    exact .nil
  | cons a as ih =>
    obtain ⟨b, is', js, hFirst, hBehind, -⟩ := bind_eq_some.mp h
    obtain ⟨bs', js', _, hRest, hEnd, -⟩ := bind_eq_some.mp hBehind
    cases hEnd
    exact .cons (hf a n b is' hFirst) (ih hRest)

end Gen

/-! ## What generated instructions do -/

/-- A value below a register, and what it is in a state. -/
def Holds (n : Nat) (s : State V M) (v : Value V) (w : V) : Prop :=
  v.eval s = some w ∧ ∀ r, v = .reg r → r < n

/-- The registers below a number are the same. -/
def SameBelow (n : Nat) (s s' : State V M) : Prop := ∀ r < n, s'.regs r = s.regs r

namespace SameBelow

variable {n n' : Nat} {s s' s'' : State V M}

theorem refl (n : Nat) (s : State V M) : SameBelow n s s := fun _ _ => rfl

theorem trans (h : SameBelow n s s') (h' : SameBelow n' s' s'') (hLe : n ≤ n') :
    SameBelow n s s'' :=
  fun r hr => (h' r (Nat.lt_of_lt_of_le hr hLe)).trans (h r hr)

end SameBelow

namespace Holds

variable {n n' : Nat} {s s' : State V M} {v : Value V} {w : V}

theorem const (n : Nat) (s : State V M) (w : V) : Holds n s (.const w) w :=
  ⟨rfl, fun _ h => by cases h⟩

theorem mono (h : Holds n s v w) (hSame : SameBelow n s s') (hLe : n ≤ n') : Holds n' s' v w := by
  refine ⟨?_, fun r hr => Nat.lt_of_lt_of_le (h.2 r hr) hLe⟩
  cases v with
  | const => exact h.1
  | reg r => exact (hSame r (h.2 r rfl)).trans h.1

end Holds

/-- The arguments of an instruction. -/
theorem mapM_eval {n : Nat} {s : State V M} {vs : List (Value V)} {ws : List V}
    (h : List.Forall₂ (Holds n s) vs ws) : vs.mapM (Value.eval s) = some ws := by
  induction h with
  | nil => rfl
  | cons hFirst _ ih => rw [List.mapM_cons, hFirst.1, ih]; rfl

namespace Gen

/-- From a state the instructions of a generator that starts at register `n` lead to a state that
agrees on the registers below `n` and satisfies the condition, which may also speak of the result
and of the next register. -/
def Does (P : Processor Op V M) (g : Gen Op V α) (n : Nat) (s : State V M)
    (post : α → Nat → State V M → Prop) : Prop :=
  ∀ a is, g n = some (a, is) → ∃ s', run P is s = some s' ∧ SameBelow n s s' ∧
    post a (n + is.length) s'

/-- From a state the instructions of a generator get stuck. -/
def Sticks (P : Processor Op V M) (g : Gen Op V α) (n : Nat) (s : State V M) : Prop :=
  ∀ a is, g n = some (a, is) → run P is s = none

variable {g : Gen Op V α} {f : α → Gen Op V β} {n : Nat} {s : State V M}
  {post post' : α → Nat → State V M → Prop}

theorem Does.pure {a : α} (h : post a n s) : (Pure.pure a : Gen Op V α).Does P n s post := by
  intro b is hGen
  cases hGen
  exact ⟨s, rfl, .refl n s, h⟩

theorem Does.fail : (Gen.fail : Gen Op V α).Does P n s post := by
  intro a is hGen
  cases hGen

theorem Does.bind {post' : β → Nat → State V M → Prop} (h : g.Does P n s post)
    (hNext : ∀ a n' s', n ≤ n' → SameBelow n s s' → post a n' s' → (f a).Does P n' s' post') :
    (g >>= f).Does P n s post' := by
  intro b ks hGen
  obtain ⟨a, is, js, hFirst, hLast, rfl⟩ := bind_eq_some.mp hGen
  obtain ⟨s', hRun, hSame, hPost⟩ := h a is hFirst
  obtain ⟨s'', hRun', hSame', hPost'⟩ := hNext a _ s' (Nat.le_add_right _ _) hSame hPost b js hLast
  refine ⟨s'', ?_, hSame.trans hSame' (Nat.le_add_right _ _), ?_⟩
  · rw [run_append, hRun]
    exact hRun'
  · rwa [List.length_append, ← Nat.add_assoc]

theorem Does.mono (h : g.Does P n s post) (hPost : ∀ a n' s', n ≤ n' → SameBelow n s s' →
    post a n' s' → post' a n' s') : g.Does P n s post' := by
  intro a is hGen
  obtain ⟨s', hRun, hSame, h'⟩ := h a is hGen
  exact ⟨s', hRun, hSame, hPost a _ s' (Nat.le_add_right _ _) hSame h'⟩

theorem run_emit {op : Op} {args : List (Value V)} {ws : List V}
    (hArgs : List.Forall₂ (Holds n s) args ws) : run P [⟨n, op, args⟩] s =
      (P.exec op ws s.mem).map fun x => ⟨Function.update s.regs n (some x.1), x.2⟩ := by
  show ((Instr.step P s ⟨n, op, args⟩).bind some) = _
  rw [Option.bind_fun_some, Instr.step, mapM_eval hArgs]
  simp only [Option.bind_eq_bind, Option.bind_some]
  cases P.exec op ws s.mem with
  | none => rfl
  | some x => rfl

theorem Does.emit {op : Op} {args : List (Value V)} {ws : List V} {w : V} {mem : M}
    (hArgs : List.Forall₂ (Holds n s) args ws) (hExec : P.exec op ws s.mem = some (w, mem)) :
    (Gen.emit op args).Does P n s fun v n' s' => Holds n' s' v w ∧ s'.mem = mem := by
  intro v is hGen
  cases hGen
  refine ⟨⟨Function.update s.regs n (some w), mem⟩, ?_, fun r hr => ?_, ⟨?_, ?_⟩, rfl⟩
  · rw [run_emit hArgs, hExec]
    rfl
  · exact Function.update_of_ne (Nat.ne_of_lt hr) _ _
  · exact Function.update_self _ _ _
  · rintro r ⟨⟩
    exact Nat.lt_succ_self n

theorem Sticks.emit {op : Op} {args : List (Value V)} {ws : List V}
    (hArgs : List.Forall₂ (Holds n s) args ws) (hExec : P.exec op ws s.mem = none) :
    (Gen.emit op args).Sticks P n s := by
  intro v is hGen
  cases hGen
  rw [run_emit hArgs, hExec]
  rfl

theorem Sticks.fail : (Gen.fail : Gen Op V α).Sticks P n s := by
  intro a is hGen
  cases hGen

theorem Sticks.bind (h : g.Sticks P n s) : (g >>= f).Sticks P n s := by
  intro b ks hGen
  obtain ⟨a, is, js, hFirst, -, rfl⟩ := bind_eq_some.mp hGen
  rw [run_append, h a is hFirst]
  rfl

theorem Does.sticks (h : g.Does P n s post)
    (hNext : ∀ a n' s', n ≤ n' → SameBelow n s s' → post a n' s' → (f a).Sticks P n' s') :
    (g >>= f).Sticks P n s := by
  intro b ks hGen
  obtain ⟨a, is, js, hFirst, hLast, rfl⟩ := bind_eq_some.mp hGen
  obtain ⟨s', hRun, hSame, hPost⟩ := h a is hFirst
  rw [run_append, hRun]
  exact hNext a _ s' (Nat.le_add_right _ _) hSame hPost b js hLast

/-- The generator for each element keeps an invariant over the elements that are left and the results
so far. -/
theorem Does.each {f : α → Gen Op V β} {inv : List α → List β → Nat → State V M → Prop}
    (hStep : ∀ a as bs n s, inv (a :: as) bs n s →
      (f a).Does P n s fun b n' s' => inv as (bs ++ [b]) n' s')
    (as : List α) (bs : List β) {n : Nat} {s : State V M} (h : inv as bs n s) :
    (Gen.each f as).Does P n s fun cs n' s' => inv [] (bs ++ cs) n' s' := by
  induction as generalizing bs n s with
  | nil =>
    apply Does.pure
    rwa [List.append_nil]
  | cons a as ih =>
    refine (hStep a as bs n s h).bind fun b n' s' _ _ hInv => ?_
    refine (ih (bs ++ [b]) hInv).bind fun cs n'' s'' _ _ hAll => ?_
    apply Does.pure
    rwa [List.append_assoc] at hAll

/-- From a state the instructions of a generator compute what an option holds, and get stuck if it
holds nothing. -/
def Yields (P : Processor Op V M) (g : Gen Op V α) (n : Nat) (s : State V M) (x : Option β)
    (post : α → β → Nat → State V M → Prop) : Prop :=
  (∀ b, x = some b → g.Does P n s fun a n' s' => post a b n' s') ∧ (x = none → g.Sticks P n s)

theorem Yields.of_does {b : β} {post : α → β → Nat → State V M → Prop}
    (h : g.Does P n s fun a n' s' => post a b n' s') : g.Yields P n s (some b) post := by
  constructor
  · rintro b' ⟨⟩
    exact h
  · intro hNone
    cases hNone

theorem Yields.pure {a : α} {b : β} {post : α → β → Nat → State V M → Prop} (h : post a b n s) :
    (Pure.pure a : Gen Op V α).Yields P n s (some b) post := .of_does (.pure h)

theorem Yields.fail {post : α → β → Nat → State V M → Prop} {x : Option β} :
    (Gen.fail : Gen Op V α).Yields P n s x post :=
  ⟨fun _ _ => Does.fail, fun _ => Sticks.fail⟩

theorem Yields.emit {op : Op} {args : List (Value V)} {ws : List V} {mem : M} {x : Option β}
    {w : β → V} (hArgs : List.Forall₂ (Holds n s) args ws)
    (hExec : P.exec op ws s.mem = x.map fun b => (w b, mem)) :
    (Gen.emit op args).Yields P n s x fun v b n' s' => Holds n' s' v (w b) ∧ s'.mem = mem := by
  constructor
  · rintro b rfl
    exact Does.emit hArgs hExec
  · rintro rfl
    exact Sticks.emit hArgs hExec

theorem Yields.bind {γ δ : Type} {f : α → Gen Op V γ} {x : Option β} {h : β → Option δ}
    {post : α → β → Nat → State V M → Prop} {post' : γ → δ → Nat → State V M → Prop}
    (hFirst : g.Yields P n s x post)
    (hNext : ∀ a b n' s', x = some b → n ≤ n' → SameBelow n s s' → post a b n' s' →
      (f a).Yields P n' s' (h b) post') :
    (g >>= f).Yields P n s (x.bind h) post' := by
  cases x with
  | none =>
    constructor
    · intro b hSome
      cases hSome
    · exact fun _ => (hFirst.2 rfl).bind
  | some b =>
    have hDoes := hFirst.1 b rfl
    constructor
    · intro c hc
      exact hDoes.bind fun a n' s' hLe hSame hPost => (hNext a b n' s' rfl hLe hSame hPost).1 c hc
    · intro hNone
      exact hDoes.sticks fun a n' s' hLe hSame hPost =>
        (hNext a b n' s' rfl hLe hSame hPost).2 hNone

/-- A step that never gets stuck in front of the rest. -/
theorem Does.yields {γ : Type} {f : α → Gen Op V γ} {x : Option β}
    {post' : γ → β → Nat → State V M → Prop} (hFirst : g.Does P n s post)
    (hNext : ∀ a n' s', n ≤ n' → SameBelow n s s' → post a n' s' →
      (f a).Yields P n' s' x post') :
    (g >>= f).Yields P n s x post' := by
  refine ⟨fun b hb => ?_, fun hNone => ?_⟩
  · exact hFirst.bind fun a n' s' hLe hSame hPost => (hNext a n' s' hLe hSame hPost).1 b hb
  · exact hFirst.sticks fun a n' s' hLe hSame hPost => (hNext a n' s' hLe hSame hPost).2 hNone

end Gen

end Ssa
