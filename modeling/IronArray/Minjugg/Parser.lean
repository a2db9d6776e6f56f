import IronArray.Language.Phrases
import IronArray.Minjugg.Lexer

/-!
# The parser of expressions

The recursive descent of `tinyexpr.c`. Each function looks at the current token and calls the next
tighter one: `list`, `expr`, `term`, `factor`, `power`, `base`, and `base` calls `power`, `expr` and
`list` again. An error is a token that no function moves on from. The functions are given the number
of rounds that their loops and calls may take; `jug_te_compile` gives them more than they need.
-/

namespace IronArray

open Phrases

/-- `jug_te_expr`. The number of parameters of a complete node is its arity. -/
inductive TeExpr
  /-- `new_expr(0, 0)`, which stands where nothing could be parsed. -/
  | teNone
  | teConstant (value : FP)
  | teVariable (bound : String)
  | teFunction (function : ExprType) (parameters : List TeExpr)
  | teCustom (context : Udf) (parameters : List TeExpr)

/-- `state`: what is left of the text, and the current token. -/
structure TeState where
  next : List Char
  type : Token

/-- Why a parser does not return: it has used up its rounds, or it writes a parameter behind the end
of a node. -/
inductive Stuck
  | rounds | overflow
deriving DecidableEq

abbrev TeParse (τ : Type) := Parse TeState τ Stuck

/-- `s->type = TOK_ERROR`. -/
def TeState.fail (s : TeState) : TeState := { s with type := .tokError }

namespace Lexicon

variable (L : Lexicon)

/-- The tokens of an expression. -/
def stream : TokenStream TeState Token where
  tok := TeState.type
  next s := ⟨(L.nextToken s.next).2, (L.nextToken s.next).1⟩

/-! ## Loops of operators -/

/-- A node with two parameters. -/
def binary (function : ExprType) (a b : TeExpr) : TeExpr := .teFunction function [a, b]

def factorOp : Token → Option (TeExpr → TeExpr → TeExpr)
  | .tokInfix .pow => some (binary .pow)
  | _ => none

def termOp : Token → Option (TeExpr → TeExpr → TeExpr)
  | .tokInfix .mul => some (binary .mul)
  | .tokInfix .divide => some (binary .divide)
  | .tokInfix .fmod => some (binary .fmod)
  | _ => none

def exprOp : Token → Option (TeExpr → TeExpr → TeExpr)
  | .tokInfix .add => some (binary .add)
  | .tokInfix .sub => some (binary .sub)
  | _ => none

def listOp : Token → Option (TeExpr → TeExpr → TeExpr)
  | .tokSep => some (binary .comma)
  | _ => none

section Levels

variable (rounds : Nat) (power : TeParse TeExpr)

/-- `factor`. -/
def factor : TeParse TeExpr := level L.stream factorOp power .rounds rounds

/-- `term`. -/
def term : TeParse TeExpr := level L.stream termOp (L.factor rounds power) .rounds rounds

/-- `expr`. -/
def expr : TeParse TeExpr := level L.stream exprOp (L.term rounds power) .rounds rounds

/-- `list`. -/
def list : TeParse TeExpr := level L.stream listOp (L.expr rounds power) .rounds rounds

end Levels

/-! ## Calls -/

/-- The loop over the arguments of a function. The first of them is parameter `first` of a node that
has room for a number of parameters. -/
def arguments (expr : TeParse TeExpr) (slots first : Nat) :
    Nat → List TeExpr → TeParse (List TeExpr)
  | 0, ps, s => .ok (ps, s)
  | left + 1, ps, s => do
    let (t, s) ← expr (L.stream.next s)
    if first + ps.length < slots then
      if s.type = .tokSep then arguments expr slots first left (ps ++ [t]) s
      else .ok (ps ++ [t], s)
    else .error .overflow

/-- Arguments in parentheses, as many as the function takes. -/
def call (expr : TeParse TeExpr) (slots first arity : Nat) : TeParse (List TeExpr) := fun s =>
  if s.type ≠ .tokOpen then .ok ([], s.fail)
  else do
    let (ps, s) ← L.arguments expr slots first arity [] s
    if s.type ≠ .tokClose ∨ ps.length ≠ arity then .ok (ps, s.fail)
    else .ok (ps, L.stream.next s)

/-- The parameters of a node of type `TE_CUSTOM`: seven, and a context. -/
def customSlots : Nat := 8

/-! ## The parser -/

/-- `base`. -/
def base (rounds : Nat) (power : TeParse TeExpr) : TeParse TeExpr := fun s =>
  match s.type with
  | .teCustom udf => do
    -- the function itself is parameter 0
    let (ps, s) ← L.call (L.expr rounds power) customSlots 1 udf.numArgs (L.stream.next s)
    .ok (.teCustom udf ps, s)
  | .tokNumber value => .ok (.teConstant value, L.stream.next s)
  | .tokVariable bound => .ok (.teVariable bound, L.stream.next s)
  | .teFunction 1 function => do
    let (t, s) ← power (L.stream.next s)
    .ok (.teFunction function [t], s)
  | .teFunction arity function => do
    let (ps, s) ← L.call (L.expr rounds power) arity 0 arity (L.stream.next s)
    .ok (.teFunction function ps, s)
  | .tokOpen => do
    let (t, s) ← L.list rounds power (L.stream.next s)
    if s.type ≠ .tokClose then .ok (t, s.fail) else .ok (t, L.stream.next s)
  | _ => .ok (.teNone, s.fail)

/-- The signs in front of a base. -/
def signs : Nat → Int → TeParse Int
  | 0, _, _ => .error .rounds
  | rounds + 1, sign, s =>
    match s.type with
    | .tokInfix .add => signs rounds sign (L.stream.next s)
    | .tokInfix .sub => signs rounds (-sign) (L.stream.next s)
    | _ => .ok (sign, s)

/-- A base behind its signs. -/
def signed (sign : Int) (t : TeExpr) : TeExpr :=
  if sign = 1 then t else .teFunction .negate [t]

/-- `power`. -/
def power : Nat → TeParse TeExpr
  | 0, _ => .error .rounds
  | rounds + 1, s => do
    let (sign, s) ← L.signs (rounds + 1) 1 s
    let (t, s) ← L.base (rounds + 1) (power rounds) s
    .ok (signed sign t, s)

/-- The state at the first token of a text. -/
def start (expression : List Char) : TeState := L.stream.next ⟨expression, .tokEnd⟩

/-- `jug_te_compile`: a tree, or the position of an error. -/
def jugTeCompile (expression : List Char) : Except Stuck (Except Nat TeExpr) := do
  let rounds := expression.length + 2
  let (root, s) ← L.list rounds (L.power rounds) (L.start expression)
  if s.type ≠ .tokEnd then
    let error := expression.length - s.next.length
    .ok (.error (if error = 0 then 1 else error))
  else .ok (.ok root)

end Lexicon

/-! ## The parser ends -/

/-- What is left to parse: the rest of the text, and the token in front of it if a phrase may begin
behind it. -/
def TeState.size (s : TeState) : Nat := s.next.length + s.type.weight

theorem TeState.size_fail (s : TeState) : s.fail.size ≤ s.size := Nat.le_add_right _ _

namespace Lexicon

variable {L : Lexicon} {s : TeState} {bound rounds : Nat}

theorem size_next : (L.stream.next s).size ≤ s.next.length := by
  have h := L.nextToken_length s.next
  show (L.nextToken s.next).2.length + (L.nextToken s.next).1.weight ≤ _
  omega

theorem size_next_le : (L.stream.next s).size ≤ s.size :=
  size_next.trans (Nat.le_add_right _ _)

theorem size_next_lt (h : s.type.weight = 1) : (L.stream.next s).size < s.size := by
  have hNext : (L.stream.next s).size ≤ s.next.length := size_next
  show _ < s.next.length + s.type.weight
  omega

/-- Operators have weight. -/
theorem factorOp_weight {t : Token} (h : factorOp t ≠ none) : t.weight = 1 := by
  unfold factorOp at h
  split at h
  · rfl
  · exact absurd rfl h

theorem termOp_weight {t : Token} (h : termOp t ≠ none) : t.weight = 1 := by
  unfold termOp at h
  split at h
  all_goals first | rfl | exact absurd rfl h

theorem exprOp_weight {t : Token} (h : exprOp t ≠ none) : t.weight = 1 := by
  unfold exprOp at h
  split at h
  all_goals first | rfl | exact absurd rfl h

theorem listOp_weight {t : Token} (h : listOp t ≠ none) : t.weight = 1 := by
  unfold listOp at h
  split at h
  · rfl
  · exact absurd rfl h

section Levels

variable {power : TeParse TeExpr}

theorem expr_ends (hPower : Ends TeState.size .rounds bound power) (hRounds : bound ≤ rounds) :
    Ends TeState.size .rounds bound (L.expr rounds power) :=
  level_ends (fun _ h => size_next_lt (exprOp_weight h))
    (level_ends (fun _ h => size_next_lt (termOp_weight h))
      (level_ends (fun _ h => size_next_lt (factorOp_weight h)) hPower hRounds) hRounds) hRounds

theorem list_ends (hPower : Ends TeState.size .rounds bound power) (hRounds : bound ≤ rounds) :
    Ends TeState.size .rounds bound (L.list rounds power) :=
  level_ends (fun _ h => size_next_lt (listOp_weight h)) (expr_ends hPower hRounds) hRounds

end Levels

section Calls

variable {expr : TeParse TeExpr} {slots first arity : Nat}

theorem arguments_ended (hExpr : Ends TeState.size .rounds bound expr) (left : Nat)
    (ps : List TeExpr) (hWeight : s.type.weight = 1) (hBound : s.size ≤ bound) :
    Ended TeState.size .rounds s.size (L.arguments expr slots first left ps s) := by
  induction left generalizing ps s with
  | zero => exact .ok (Nat.le_refl _)
  | succ left ih =>
    have hLess : (L.stream.next s).size < s.size := size_next_lt hWeight
    refine ((hExpr _ (by omega)).grow (Nat.le_of_lt hLess)).bind fun t s' hSize => ?_
    dsimp only
    split
    · split
      next hSep =>
        exact (ih (ps ++ [t]) (by rw [hSep]; rfl) (by omega)).grow hSize
      next => exact .ok hSize
    · exact .inl ⟨_, rfl, by decide⟩

theorem call_ended (hExpr : Ends TeState.size .rounds bound expr) (hBound : s.size ≤ bound) :
    Ended TeState.size .rounds s.size (L.call expr slots first arity s) := by
  unfold call
  split
  · exact .ok s.size_fail
  next hOpen =>
    have hWeight : s.type.weight = 1 := by
      rw [not_not.mp hOpen]
      rfl
    refine (arguments_ended hExpr arity [] hWeight hBound).bind fun ps s' hSize => ?_
    dsimp only
    split
    · exact .ok (s'.size_fail.trans hSize)
    · exact .ok (size_next_le.trans hSize)

end Calls

theorem base_ended {power : TeParse TeExpr} (hPower : Ends TeState.size .rounds bound power)
    (hRounds : bound ≤ rounds) (hBound : s.size ≤ bound) :
    Ended TeState.size .rounds s.size (L.base rounds power s) := by
  have hNext : (L.stream.next s).size ≤ s.size := size_next_le
  have hCall : ∀ slots first arity, Ended TeState.size .rounds s.size
      (L.call (L.expr rounds power) slots first arity (L.stream.next s)) := fun slots first arity =>
    (call_ended (expr_ends hPower hRounds) (hNext.trans hBound)).grow hNext
  unfold base
  split
  · exact (hCall _ _ _).bind fun ps s' hSize => .ok hSize
  · exact .ok hNext
  · exact .ok hNext
  next function hType =>
    have hLess : (L.stream.next s).size < s.size := size_next_lt (by rw [hType]; rfl)
    exact ((hPower _ (by omega)).grow hNext).bind fun t s' hSize => .ok hSize
  · exact (hCall _ _ _).bind fun ps s' hSize => .ok hSize
  next hType =>
    have hLess : (L.stream.next s).size < s.size := size_next_lt (by rw [hType]; rfl)
    refine ((list_ends hPower hRounds _ (by omega)).grow hNext).bind fun t s' hSize => ?_
    dsimp only
    split
    · exact .ok (s'.size_fail.trans hSize)
    · exact .ok (size_next_le.trans hSize)
  · exact .ok s.size_fail

theorem signs_ended (sign : Int) (hRounds : s.size < rounds) :
    Ended TeState.size .rounds s.size (L.signs rounds sign s) := by
  induction rounds generalizing sign s with
  | zero => omega
  | succ rounds ih =>
    rw [signs]
    split
    next hType =>
      have hLess : (L.stream.next s).size < s.size := size_next_lt (by rw [hType]; rfl)
      exact (ih sign (by omega)).grow hLess.le
    next hType =>
      have hLess : (L.stream.next s).size < s.size := size_next_lt (by rw [hType]; rfl)
      exact (ih (-sign) (by omega)).grow hLess.le
    next => exact .ok (Nat.le_refl _)

theorem power_ends (rounds : Nat) : Ends TeState.size .rounds rounds (L.power rounds) := by
  induction rounds with
  | zero => exact fun s hs => absurd hs (Nat.not_lt_zero _)
  | succ rounds ih =>
    intro s hs
    refine (signs_ended 1 hs).bind fun sign s' hSize => ?_
    refine ((base_ended ih (Nat.le_succ _) (by omega)).grow hSize).bind fun t s'' hEnd => ?_
    exact .ok hEnd

theorem size_start (expression : List Char) : (L.start expression).size ≤ expression.length :=
  size_next

/-- `jug_te_compile` has rounds enough for every text. -/
theorem list_start_ended (expression : List Char) : Ended TeState.size .rounds expression.length
    (L.list (expression.length + 2) (L.power (expression.length + 2)) (L.start expression)) := by
  have hStart := L.size_start expression
  exact (list_ends (power_ends _) (Nat.le_refl _) _ (by omega)).grow hStart

end Lexicon

end IronArray
