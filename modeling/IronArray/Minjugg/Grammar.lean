import IronArray.Minjugg.Parser

/-!
# The grammar of expressions

The rules that the comments of `tinyexpr.c` give, as phrases of tokens and their trees. A rule is
stated over the phrases of the rule that it calls, so that `Power n` is the rule `power` with at most
`n` powers inside one another. The parser accepts a text exactly if its tokens are such a phrase:
`jugTeCompile_iff`.
-/

namespace IronArray

open Phrases

/-! ## Rules -/

/-- The phrases of a rule. -/
abbrev TePhrase := List Token → TeExpr → Prop

namespace Grammar

/-- `<expr> {"," <expr>}` between the parentheses of a function. -/
inductive Arguments (Expr : TePhrase) : List Token → List TeExpr → Prop
  | one {ks : List Token} {t : TeExpr} : Expr ks t → Arguments Expr ks [t]
  | more {ks ls : List Token} {t : TeExpr} {ps : List TeExpr} :
      Expr ks t → Arguments Expr ls ps → Arguments Expr (ks ++ .tokSep :: ls) (t :: ps)

/-- `<power> {("^" | "**") <power>}`. -/
abbrev Factor (Power : TePhrase) : TePhrase := Chain Lexicon.factorOp Power

/-- `<factor> {("*" | "/" | "%") <factor>}`. -/
abbrev Term (Power : TePhrase) : TePhrase := Chain Lexicon.termOp (Factor Power)

/-- `<term> {("+" | "-") <term>}`. -/
abbrev Expr (Power : TePhrase) : TePhrase := Chain Lexicon.exprOp (Term Power)

/-- `<expr> {"," <expr>}`. -/
abbrev ExprList (Power : TePhrase) : TePhrase := Chain Lexicon.listOp (Expr Power)

/-- `<constant> | <variable> | <function-1> <power> | <function-X> "(" <expr> {"," <expr>} ")" |
"(" <list> ")"`. -/
inductive Base (Power : TePhrase) : TePhrase
  | constant (value : FP) : Base Power [.tokNumber value] (.teConstant value)
  | operand (bound : String) : Base Power [.tokVariable bound] (.teVariable bound)
  | function1 (function : ExprType) {ks : List Token} {t : TeExpr} : Power ks t →
      Base Power (.teFunction 1 function :: ks) (.teFunction function [t])
  | functionX (function : ExprType) {arity : Nat} {ks : List Token} {ps : List TeExpr} :
      arity ≠ 1 → Arguments (Expr Power) ks ps → ps.length = arity →
      Base Power (.teFunction arity function :: .tokOpen :: (ks ++ [.tokClose]))
        (.teFunction function ps)
  | custom (udf : Udf) {ks : List Token} {ps : List TeExpr} :
      Arguments (Expr Power) ks ps → ps.length = udf.numArgs → udf.numArgs < Lexicon.customSlots →
      Base Power (.teCustom udf :: .tokOpen :: (ks ++ [.tokClose])) (.teCustom udf ps)
  | list {ks : List Token} {t : TeExpr} : ExprList Power ks t →
      Base Power (.tokOpen :: (ks ++ [.tokClose])) t

/-- `{("-" | "+")} <base>` behind signs whose product is known. -/
inductive Signed (Base : TePhrase) : Int → TePhrase
  | base {sign : Int} {ks : List Token} {t : TeExpr} : Base ks t →
      Signed Base sign ks (Lexicon.signed sign t)
  | plus {sign : Int} {ks : List Token} {t : TeExpr} : Signed Base sign ks t →
      Signed Base sign (.tokInfix .add :: ks) t
  | minus {sign : Int} {ks : List Token} {t : TeExpr} : Signed Base (-sign) ks t →
      Signed Base sign (.tokInfix .sub :: ks) t

/-- `{("-" | "+")} <base>`, with at most a number of powers inside one another. -/
def Power : Nat → TePhrase
  | 0 => fun _ _ => False
  | n + 1 => Signed (Base (Power n)) 1

/-- The expressions that are accepted. -/
def Accepted (ks : List Token) (t : TeExpr) : Prop := ∃ n, ExprList (Power n) ks t

/-- The tokens of a text. -/
def Lexes (L : Lexicon) (text : List Char) (ks : List Token) : Prop :=
  ∃ s, Spans L.stream (L.start text) ks s ∧ s.type = .tokEnd

end Grammar

open Grammar

/-! ## What is accepted is an expression -/

/-- Nothing has gone wrong so far. -/
def TeState.Good (s : TeState) : Prop := s.type ≠ .tokError

/-- A parser accepts phrases only. -/
def TeSound (L : Lexicon) (p : TeParse TeExpr) (P : TePhrase) : Prop :=
  ∀ s t s', p s = .ok (t, s') → s'.Good → ∃ ks, Spans L.stream s ks s' ∧ P ks t

namespace Lexicon

variable {L : Lexicon} {s s' : TeState} {rounds bound : Nat} {t : TeExpr} {ks : List Token}

theorem fail_not_good (s : TeState) : ¬ s.fail.Good := fun h => h rfl

/-- Something with weight is no error. -/
theorem good_of_weight (h : s.type.weight = 1) : s.Good := by
  intro hError
  rw [hError] at h
  cases h

section Sound

variable {power expr : TeParse TeExpr} {P E : TePhrase}

theorem expr_sound (hPower : TeSound L power P) :
    TeSound L (L.expr rounds power) (Grammar.Expr P) := by
  have hFactor : TeSound L (L.factor rounds power) (Factor P) := fun _ _ _ =>
    level_sound (fun _ h => good_of_weight (factorOp_weight h)) hPower
  have hTerm : TeSound L (L.term rounds power) (Term P) := fun _ _ _ =>
    level_sound (fun _ h => good_of_weight (termOp_weight h)) hFactor
  exact fun _ _ _ => level_sound (fun _ h => good_of_weight (exprOp_weight h)) hTerm

theorem list_sound (hPower : TeSound L power P) :
    TeSound L (L.list rounds power) (ExprList P) := fun _ _ _ =>
  level_sound (fun _ h => good_of_weight (listOp_weight h)) (expr_sound hPower)

/-- The arguments that the loop has added. -/
theorem arguments_sound (hExpr : TeSound L expr E) {slots first left : Nat} {ps qs : List TeExpr}
    (h : L.arguments expr slots first left ps s = .ok (qs, s')) (hClose : s'.type = .tokClose)
    (hWeight : s.type.weight = 1) :
    ∃ rs ks, qs = ps ++ rs ∧ Grammar.Arguments E ks rs ∧
      Spans L.stream (L.stream.next s) ks s' ∧ first + qs.length ≤ slots := by
  induction left generalizing ps s with
  | zero =>
    cases h
    rw [hClose] at hWeight
    cases hWeight
  | succ left ih =>
    obtain ⟨⟨t, s₁⟩, hFirst, h⟩ := ok_bind.mp h
    dsimp only at h
    split at h
    next hRoom =>
      split at h
      next hSep =>
        obtain ⟨rs, ls, hEq, hArguments, hRest, hSlots⟩ := ih h (by rw [hSep]; rfl)
        have hGood : s₁.Good := by
          rw [TeState.Good, hSep]
          exact fun hError => nomatch hError
        obtain ⟨ks, hSpans, hPhrase⟩ := hExpr _ _ _ hFirst hGood
        refine ⟨t :: rs, ks ++ .tokSep :: ls, ?_, .more hPhrase hArguments,
          hSpans.append (.of_tok hSep hRest), hSlots⟩
        rw [hEq, List.append_assoc]
        rfl
      next =>
        cases h
        have hGood : s'.Good := by
          rw [TeState.Good, hClose]
          exact fun hError => nomatch hError
        obtain ⟨ks, hSpans, hPhrase⟩ := hExpr _ _ _ hFirst hGood
        refine ⟨[t], ks, rfl, .one hPhrase, hSpans, ?_⟩
        rw [List.length_append, List.length_singleton]
        omega
    next => cases h

theorem call_sound (hExpr : TeSound L expr E) {slots first arity : Nat} {ps : List TeExpr}
    (h : L.call expr slots first arity s = .ok (ps, s')) (hGood : s'.Good) :
    ∃ ks, Spans L.stream s (.tokOpen :: (ks ++ [.tokClose])) s' ∧ Grammar.Arguments E ks ps ∧
      ps.length = arity ∧ first + arity ≤ slots := by
  unfold call at h
  split at h
  · cases h
    exact absurd hGood (fail_not_good s)
  next hOpen =>
    have hOpen : s.type = .tokOpen := not_not.mp hOpen
    obtain ⟨⟨qs, s₁⟩, hArguments, h⟩ := ok_bind.mp h
    dsimp only at h
    split at h
    · cases h
      exact absurd hGood (fail_not_good s₁)
    next hEnd =>
      rw [not_or, not_not, not_not] at hEnd
      cases h
      obtain ⟨rs, ks, hEq, hPhrase, hSpans, hSlots⟩ :=
        arguments_sound hExpr hArguments hEnd.1 (by rw [hOpen]; rfl)
      refine ⟨ks, .of_tok hOpen (hSpans.snoc hEnd.1), ?_, hEnd.2, hEnd.2 ▸ hSlots⟩
      rw [hEq]
      exact hPhrase

theorem base_sound (hPower : TeSound L power P) :
    TeSound L (L.base rounds power) (Grammar.Base P) := by
  intro s t s' h hGood
  unfold base at h
  split at h
  next udf hType =>
    obtain ⟨⟨ps, s₁⟩, hCall, h⟩ := ok_bind.mp h
    cases h
    obtain ⟨ks, hSpans, hArguments, hLen, hSlots⟩ := call_sound (expr_sound hPower) hCall hGood
    exact ⟨_, .of_tok hType hSpans, .custom udf hArguments hLen (by omega)⟩
  next value hType =>
    cases h
    exact ⟨_, .of_tok hType (.nil _), .constant value⟩
  next bound hType =>
    cases h
    exact ⟨_, .of_tok hType (.nil _), .operand bound⟩
  next function hType =>
    obtain ⟨⟨u, s₁⟩, hOk, h⟩ := ok_bind.mp h
    cases h
    obtain ⟨ks, hSpans, hPhrase⟩ := hPower _ _ _ hOk hGood
    exact ⟨_, .of_tok hType hSpans, .function1 function hPhrase⟩
  next arity function hOther hType =>
    obtain ⟨⟨ps, s₁⟩, hCall, h⟩ := ok_bind.mp h
    cases h
    obtain ⟨ks, hSpans, hArguments, hLen, -⟩ := call_sound (expr_sound hPower) hCall hGood
    exact ⟨_, .of_tok hType hSpans, .functionX function hOther hArguments hLen⟩
  next hType =>
    obtain ⟨⟨u, s₁⟩, hOk, h⟩ := ok_bind.mp h
    dsimp only at h
    split at h
    · cases h
      exact absurd hGood (fail_not_good s₁)
    next hClose =>
      have hClose : s₁.type = .tokClose := not_not.mp hClose
      cases h
      have hGood₁ : s₁.Good := by
        rw [TeState.Good, hClose]
        exact fun hError => nomatch hError
      obtain ⟨ks, hSpans, hPhrase⟩ := list_sound hPower _ _ _ hOk hGood₁
      exact ⟨_, .of_tok hType (hSpans.snoc hClose), .list hPhrase⟩
  next =>
    cases h
    exact absurd hGood (fail_not_good s)

end Sound

theorem signs_sound {B : TePhrase} {sign sign' : Int}
    (h : L.signs rounds sign s = .ok (sign', s')) {s'' : TeState}
    (hBase : ∃ ks, Spans L.stream s' ks s'' ∧ B ks t) :
    ∃ ks, Spans L.stream s ks s'' ∧ Signed B sign ks (signed sign' t) := by
  induction rounds generalizing sign s with
  | zero => cases h
  | succ rounds ih =>
    rw [signs] at h
    split at h
    next hType =>
      obtain ⟨ks, hSpans, hSigned⟩ := ih h
      exact ⟨_, .of_tok hType hSpans, .plus hSigned⟩
    next hType =>
      obtain ⟨ks, hSpans, hSigned⟩ := ih h
      exact ⟨_, .of_tok hType hSpans, .minus hSigned⟩
    next =>
      cases h
      obtain ⟨ks, hSpans, hPhrase⟩ := hBase
      exact ⟨ks, hSpans, .base hPhrase⟩

theorem power_sound (rounds : Nat) : TeSound L (L.power rounds) (Grammar.Power rounds) := by
  induction rounds with
  | zero =>
    intro s t s' h
    cases h
  | succ rounds ih =>
    intro s t s' h hGood
    obtain ⟨⟨sign, s₁⟩, hSigns, h⟩ := ok_bind.mp h
    obtain ⟨⟨u, s₂⟩, hBase, h⟩ := ok_bind.mp h
    cases h
    exact signs_sound hSigns (base_sound ih _ _ _ hBase hGood)

end Lexicon

/-! ## Expressions are accepted -/

/-- A parser accepts the phrases of at most some size, where the token behind them allows it. -/
def TeComplete (L : Lexicon) (p : TeParse TeExpr) (P : TePhrase) (bound : Nat)
    (After : Token → Prop) : Prop :=
  ∀ ks t s s', P ks t → Spans L.stream s ks s' → s.size < bound → After s'.type →
    p s = .ok (t, s')

namespace Lexicon

variable {L : Lexicon} {s s' : TeState} {rounds bound : Nat} {t : TeExpr} {ks : List Token}

/-- A token behind which no expression goes on. -/
def Closes (t : Token) : Prop := factorOp t = none ∧ termOp t = none ∧ exprOp t = none

theorem factorOp_of_termOp {t : Token} (h : termOp t ≠ none) : factorOp t = none := by
  unfold termOp at h
  split at h
  all_goals first | rfl | exact absurd rfl h

theorem tighter_of_exprOp {t : Token} (h : exprOp t ≠ none) :
    factorOp t = none ∧ termOp t = none := by
  unfold exprOp at h
  split at h
  all_goals first | exact ⟨rfl, rfl⟩ | exact absurd rfl h

theorem closes_of_listOp {t : Token} (h : listOp t ≠ none) : Closes t := by
  unfold listOp at h
  split at h
  · exact ⟨rfl, rfl, rfl⟩
  · exact absurd rfl h

section Complete

variable {power expr : TeParse TeExpr} {P E : TePhrase}

theorem expr_complete (hPower : TeComplete L power P bound fun _ => True)
    (hRounds : bound ≤ rounds) : TeComplete L (L.expr rounds power) (Grammar.Expr P) bound
      Closes := by
  have hFactor : TeComplete L (L.factor rounds power) (Factor P) bound
      fun t => factorOp t = none := fun _ _ _ _ hPhrase hSpans hSize hAfter =>
    level_complete (fun _ => size_next_le) (fun _ h => size_next_lt (factorOp_weight h))
      (fun _ _ => trivial) hPower hRounds hPhrase hSpans hSize trivial hAfter
  have hTerm : TeComplete L (L.term rounds power) (Term P) bound
      fun t => factorOp t = none ∧ termOp t = none := fun _ _ _ _ hPhrase hSpans hSize hAfter =>
    level_complete (fun _ => size_next_le) (fun _ h => size_next_lt (termOp_weight h))
      (fun _ h => factorOp_of_termOp h) hFactor hRounds hPhrase hSpans hSize hAfter.1 hAfter.2
  exact fun _ _ _ _ hPhrase hSpans hSize hAfter =>
    level_complete (fun _ => size_next_le) (fun _ h => size_next_lt (exprOp_weight h))
      (fun _ h => tighter_of_exprOp h) hTerm hRounds hPhrase hSpans hSize
      ⟨hAfter.1, hAfter.2.1⟩ hAfter.2.2

theorem list_complete (hPower : TeComplete L power P bound fun _ => True)
    (hRounds : bound ≤ rounds) : TeComplete L (L.list rounds power) (ExprList P) bound
      fun t => Closes t ∧ listOp t = none := fun _ _ _ _ hPhrase hSpans hSize hAfter =>
  level_complete (fun _ => size_next_le) (fun _ h => size_next_lt (listOp_weight h))
    (fun _ h => closes_of_listOp h) (expr_complete hPower hRounds) hRounds hPhrase hSpans hSize
    hAfter.1 hAfter.2

theorem arguments_complete (hExpr : TeComplete L expr E bound Closes) {rs : List TeExpr}
    (h : Grammar.Arguments E ks rs) (ps : List TeExpr)
    (hSpans : Spans L.stream (L.stream.next s) ks s') (hSize : (L.stream.next s).size < bound)
    (hClose : s'.type = .tokClose) {slots first : Nat}
    (hSlots : first + ps.length + rs.length ≤ slots) :
    L.arguments expr slots first rs.length ps s = .ok (ps ++ rs, s') := by
  induction h generalizing s ps with
  | @one ks t hPhrase =>
    have hOk := hExpr _ _ _ _ hPhrase hSpans hSize (by rw [hClose]; exact ⟨rfl, rfl, rfl⟩)
    have hRoom : first + ps.length < slots := by
      simp only [List.length_cons, List.length_nil] at hSlots
      omega
    simp [Lexicon.arguments, hOk, hRoom, hClose, bind, Except.bind]
  | @more ks ls t rs hPhrase hRest ih =>
    obtain ⟨s₁, hFirst, hLast⟩ := hSpans.split
    obtain ⟨hSep, hLast⟩ := hLast.head
    have hSep : s₁.type = .tokSep := hSep
    have hOk := hExpr _ _ _ _ hPhrase hFirst hSize (by rw [hSep]; exact ⟨rfl, rfl, rfl⟩)
    have hFirstSize : s₁.size ≤ _ := hFirst.le fun _ => size_next_le
    have hNext : (L.stream.next s₁).size ≤ s₁.size := size_next_le
    simp only [List.length_cons] at hSlots
    have hRoom : first + ps.length < slots := by omega
    have hLoop := @ih s₁ (ps ++ [t]) hLast (by omega) (by
      simp only [List.length_append, List.length_cons, List.length_nil]
      omega)
    simp only [List.length_cons, Lexicon.arguments, hOk, bind, Except.bind, if_pos hRoom,
      if_pos hSep, hLoop, List.append_assoc]
    rfl

theorem call_complete (hExpr : TeComplete L expr E bound Closes) {ps : List TeExpr}
    (h : Grammar.Arguments E ks ps)
    (hSpans : Spans L.stream s (.tokOpen :: (ks ++ [.tokClose])) s') (hSize : s.size ≤ bound)
    (slots first : Nat) (hSlots : first + ps.length ≤ slots) :
    L.call expr slots first ps.length s = .ok (ps, s') := by
  obtain ⟨hOpen, hSpans⟩ := hSpans.head
  obtain ⟨s₁, hInner, hLast⟩ := hSpans.split
  obtain ⟨hClose, hLast⟩ := hLast.head
  have hOpen : s.type = .tokOpen := hOpen
  have hClose : s₁.type = .tokClose := hClose
  have hLess : (L.stream.next s).size < s.size := size_next_lt (by rw [hOpen]; rfl)
  have hArguments := arguments_complete hExpr h [] hInner (by omega) hClose
    (by simpa using hSlots)
  simp only [call, hOpen, ne_eq, not_true_eq_false, if_false, hArguments, bind, Except.bind,
    List.nil_append, hClose, or_self]
  rw [hLast.nil_eq]

theorem base_complete (hPower : TeComplete L power P bound fun _ => True)
    (hRounds : bound ≤ rounds) (h : Grammar.Base P ks t) (hSpans : Spans L.stream s ks s')
    (hSize : s.size ≤ bound) :
    L.base rounds power s = .ok (t, s') := by
  have hNext : (L.stream.next s).size ≤ s.size := size_next_le
  cases h with
  | constant value =>
    obtain ⟨hType, hSpans⟩ := hSpans.head
    have hType : s.type = .tokNumber value := hType
    simp only [base, hType]
    rw [hSpans.nil_eq]
  | operand name =>
    obtain ⟨hType, hSpans⟩ := hSpans.head
    have hType : s.type = .tokVariable name := hType
    simp only [base, hType]
    rw [hSpans.nil_eq]
  | @function1 function ks t hPhrase =>
    obtain ⟨hType, hSpans⟩ := hSpans.head
    have hType : s.type = .teFunction 1 function := hType
    have hLess : (L.stream.next s).size < s.size := size_next_lt (by rw [hType]; rfl)
    simp only [base, hType, hPower _ _ _ _ hPhrase hSpans (by omega) trivial, bind, Except.bind]
  | @functionX function arity ks ps hOther hArguments hLen =>
    obtain ⟨hType, hSpans⟩ := hSpans.head
    have hType : s.type = .teFunction arity function := hType
    have hCall := call_complete (expr_complete hPower hRounds) hArguments hSpans
      (hNext.trans hSize) arity 0 (by omega)
    rw [hLen] at hCall
    simp only [base, hType]
    rw [hCall]
    rfl
  | @custom udf ks ps hArguments hLen hArity =>
    obtain ⟨hType, hSpans⟩ := hSpans.head
    have hType : s.type = .teCustom udf := hType
    have hCall := call_complete (expr_complete hPower hRounds) hArguments hSpans
      (hNext.trans hSize) customSlots 1 (by omega)
    rw [hLen] at hCall
    simp only [base, hType, hCall, bind, Except.bind]
  | @list ks t hPhrase =>
    obtain ⟨hType, hSpans⟩ := hSpans.head
    obtain ⟨s₁, hInner, hLast⟩ := hSpans.split
    obtain ⟨hClose, hLast⟩ := hLast.head
    have hType : s.type = .tokOpen := hType
    have hClose : s₁.type = .tokClose := hClose
    have hLess : (L.stream.next s).size < s.size := size_next_lt (by rw [hType]; rfl)
    have hOk := list_complete hPower hRounds _ _ _ _ hPhrase hInner (by omega)
      (by rw [hClose]; exact ⟨⟨rfl, rfl, rfl⟩, rfl⟩)
    simp only [base, hType, hOk, hClose, ne_eq, not_true_eq_false, if_false, bind, Except.bind]
    rw [hLast.nil_eq]

end Complete

theorem signs_complete {B : TePhrase} {sign : Int} (h : Signed B sign ks t)
    (hSpans : Spans L.stream s ks s') (hSize : s.size < rounds)
    (hBase : ∀ ks u s, B ks u → Spans L.stream s ks s' → ∀ v, s.type ≠ .tokInfix v) :
    ∃ sign' ls u s₁, L.signs rounds sign s = .ok (sign', s₁) ∧ t = signed sign' u ∧
      B ls u ∧ Spans L.stream s₁ ls s' ∧ s₁.size ≤ s.size := by
  induction h generalizing s rounds with
  | @base sign ks t hPhrase =>
    obtain ⟨rounds, rfl⟩ : ∃ n, rounds = n + 1 := ⟨rounds - 1, by omega⟩
    refine ⟨sign, ks, t, s, ?_, rfl, hPhrase, hSpans, Nat.le_refl _⟩
    have hOther := hBase _ _ _ hPhrase hSpans
    rw [signs]
    split
    next hType => exact absurd hType (hOther _)
    next hType => exact absurd hType (hOther _)
    next => rfl
  | @plus sign ks t hSigned ih =>
    obtain ⟨rounds, rfl⟩ : ∃ n, rounds = n + 1 := ⟨rounds - 1, by omega⟩
    obtain ⟨hType, hSpans⟩ := hSpans.head
    have hType : s.type = .tokInfix .add := hType
    have hLess : (L.stream.next s).size < s.size := size_next_lt (by rw [hType]; rfl)
    obtain ⟨sign', ls, u, s₁, hSigns, hEq, hPhrase, hRest, hLe⟩ :=
      @ih (L.stream.next s) rounds hSpans (by omega)
    refine ⟨sign', ls, u, s₁, ?_, hEq, hPhrase, hRest, by omega⟩
    simp only [signs, hType, hSigns]
  | @minus sign ks t hSigned ih =>
    obtain ⟨rounds, rfl⟩ : ∃ n, rounds = n + 1 := ⟨rounds - 1, by omega⟩
    obtain ⟨hType, hSpans⟩ := hSpans.head
    have hType : s.type = .tokInfix .sub := hType
    have hLess : (L.stream.next s).size < s.size := size_next_lt (by rw [hType]; rfl)
    obtain ⟨sign', ls, u, s₁, hSigns, hEq, hPhrase, hRest, hLe⟩ :=
      @ih (L.stream.next s) rounds hSpans (by omega)
    refine ⟨sign', ls, u, s₁, ?_, hEq, hPhrase, hRest, by omega⟩
    simp only [signs, hType, hSigns]

/-- A base does not begin with an operator. -/
theorem base_head {P : TePhrase} (h : Grammar.Base P ks t) (hSpans : Spans L.stream s ks s')
    (v : ExprType) : s.type ≠ .tokInfix v := by
  intro hType
  cases h
  all_goals
    have hHead : s.type = _ := hSpans.head.1
    rw [hType] at hHead
    cases hHead

theorem power_complete (n rounds : Nat) :
    TeComplete L (L.power rounds) (Grammar.Power n) rounds fun _ => True := by
  induction n generalizing rounds with
  | zero => exact fun _ _ _ _ hPhrase => hPhrase.elim
  | succ n ih =>
    intro ks t s s' hPhrase hSpans hSize _
    obtain ⟨rounds, rfl⟩ : ∃ n, rounds = n + 1 := ⟨rounds - 1, by omega⟩
    obtain ⟨sign, ls, u, s₁, hSigns, rfl, hBase, hRest, hLe⟩ :=
      signs_complete hPhrase hSpans hSize fun _ _ _ h hSpans => base_head h hSpans
    have hOk := base_complete (ih rounds) (Nat.le_succ _) hBase hRest (by omega)
    simp only [power, hSigns, hOk, bind, Except.bind]

theorem jugTeCompile_sound {text : List Char} {t : TeExpr}
    (h : L.jugTeCompile text = .ok (.ok t)) : ∃ ks, Lexes L text ks ∧ Accepted ks t := by
  obtain ⟨⟨u, s⟩, hList, h⟩ := ok_bind.mp h
  dsimp only at h
  split at h
  · cases h
  next hEnd =>
    have hEnd : s.type = .tokEnd := not_not.mp hEnd
    cases h
    have hGood : s.Good := by
      rw [TeState.Good, hEnd]
      exact fun hError => nomatch hError
    obtain ⟨ks, hSpans, hPhrase⟩ := list_sound (power_sound _) _ _ _ hList hGood
    exact ⟨ks, ⟨s, hSpans, hEnd⟩, _, hPhrase⟩

theorem jugTeCompile_complete {text : List Char} {ks : List Token} {t : TeExpr}
    (hLexes : Lexes L text ks) (hAccepted : Accepted ks t) :
    L.jugTeCompile text = .ok (.ok t) := by
  obtain ⟨s, hSpans, hEnd⟩ := hLexes
  obtain ⟨n, hPhrase⟩ := hAccepted
  have hStart := L.size_start text
  have hOk := list_complete (power_complete n (text.length + 2)) (Nat.le_refl _) _ _ _ _ hPhrase
    hSpans (by omega) (by rw [hEnd]; exact ⟨⟨rfl, rfl, rfl⟩, rfl⟩)
  simp only [jugTeCompile, hOk, hEnd, ne_eq, not_true_eq_false, if_false, bind, Except.bind]

/-- A text is accepted exactly if its tokens are an expression, and its tree is that of the
expression. -/
theorem jugTeCompile_iff (text : List Char) (t : TeExpr) :
    L.jugTeCompile text = .ok (.ok t) ↔ ∃ ks, Lexes L text ks ∧ Accepted ks t := by
  constructor
  · exact fun h => jugTeCompile_sound h
  · rintro ⟨ks, hLexes, hAccepted⟩
    exact jugTeCompile_complete hLexes hAccepted

end Lexicon

end IronArray
