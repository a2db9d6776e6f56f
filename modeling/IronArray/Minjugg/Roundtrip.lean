import IronArray.Minjugg.Formula
import Mathlib.Data.Finset.Lattice.Fold
import Mathlib.Data.Fintype.Basic
import Mathlib.Data.List.Forall2

/-!
# The round trip of written expressions

A written expression has the tokens that it was written with (`text_reads`), they are a phrase of
its tree (`tokens_phrase`), and the compiler accepts the phrases of the grammar: it gives the tree of
every written expression.
-/

namespace IronArray

open Phrases Grammar

/-! ## The tokens of a text -/

section Parts

variable {L : Lexicon} {rest : List Char}

/-- A text is read as some tokens wherever no word goes on behind it. -/
def ReadsTokens (L : Lexicon) (text : List Char) (ks : List Token) : Prop :=
  ∀ rest, Stops rest → Reads L (text ++ rest) ks rest

theorem readsTokens_enclosed {text : List Char} {ks : List Token} (h : ReadsTokens L text ks)
    (needed : Bool) : ReadsTokens L (enclosed '(' ')' needed text)
      (enclosed .tokOpen .tokClose needed ks) := by
  intro rest hRest
  cases needed with
  | false => exact h rest hRest
  | true =>
    show Reads L ('(' :: ((text ++ [')']) ++ rest)) (.tokOpen :: (ks ++ [.tokClose])) rest
    rw [List.append_assoc]
    have hInner : Reads L (text ++ ')' :: rest) ks (')' :: rest) :=
      h _ (stops_cons (by decide))
    exact .cons rfl (hInner.append (.single rfl))

theorem readsTokens_separated {xss : List (List Char)} {kss : List (List Token)}
    (h : List.Forall₂ (ReadsTokens L) xss kss) (hSome : xss ≠ []) :
    ReadsTokens L (separated ',' xss) (separated .tokSep kss) := by
  induction h with
  | nil => exact absurd rfl hSome
  | @cons xs ks xss kss hFirst hOthers ih =>
    intro rest hRest
    cases hOthers with
    | nil => exact hFirst rest hRest
    | @cons ys ls yss lss hSecond hRest' =>
      have hInner := ih (List.cons_ne_nil _ _) rest hRest
      show Reads L ((xs ++ ',' :: separated ',' (ys :: yss)) ++ rest)
        (ks ++ .tokSep :: separated .tokSep (ls :: lss)) rest
      rw [List.append_assoc]
      exact (hFirst _ (stops_cons (by decide))).append (.cons rfl hInner)

/-- A name and its arguments. -/
theorem readsTokens_call {name : List Char} {k : Token} (hName : IsName name)
    (hToken : L.nameToken name = k) {xss : List (List Char)} {kss : List (List Token)}
    (h : List.Forall₂ (ReadsTokens L) xss kss) (hSome : xss ≠ []) :
    ReadsTokens L (name ++ '(' :: (separated ',' xss ++ [')']))
      (k :: .tokOpen :: (separated .tokSep kss ++ [.tokClose])) := by
  intro rest hRest
  have hArguments := readsTokens_separated h hSome (')' :: rest) (stops_cons (by decide))
  have hFirst : L.nextToken (name ++ '(' :: ((separated ',' xss ++ [')']) ++ rest)) =
      (k, '(' :: ((separated ',' xss ++ [')']) ++ rest)) := by
    rw [nextToken_name hName (stops_cons (by decide)), hToken]
  rw [List.append_assoc, List.cons_append]
  refine .cons hFirst (.cons rfl ?_)
  rw [List.append_assoc]
  exact hArguments.append (.single rfl)

end Parts

theorem functions_arity : ∀ f ∈ functions, f.arity ≠ 0 := by decide

theorem finRange_ne_nil {n : Nat} (h : n ≠ 0) : List.finRange n ≠ [] := by
  intro hNil
  have hLen := congrArg List.length hNil
  rw [List.length_finRange] at hLen
  exact h hLen

namespace Formula

variable {L : Lexicon}

/-- No expression begins with a star. -/
theorem text_head (f : Formula L) (level : Nat) (rest : List Char) :
    ∀ c ∈ (f.text level ++ rest).head?, c ≠ '*' := by
  have hEnclosed : ∀ needed xs rest, (∀ rest, ∀ c ∈ (xs ++ rest).head?, c ≠ '*') →
      ∀ c ∈ (enclosed '(' ')' needed xs ++ rest).head?, c ≠ '*' := by
    intro needed xs rest h
    cases needed with
    | false => exact h rest
    | true =>
      intro c hc
      cases hc
      decide
  have hName : ∀ name rest, IsName name → ∀ c ∈ (name ++ rest).head?, c ≠ '*' := by
    intro name rest h c hc
    cases name with
    | nil => exact absurd h.1 (by decide)
    | cons d ds =>
      cases hc
      rintro rfl
      exact absurd (h.2 _ List.mem_cons_self) (by decide)
  induction f generalizing level rest with
  | number n =>
    intro c hc
    obtain ⟨d, ds, hCons⟩ := List.exists_cons_of_ne_nil n.some
    have hHead : c = digitChar d := by
      rw [text, Numeral.text, hCons] at hc
      cases hc
      rfl
    rintro rfl
    exact absurd (hHead ▸ digitChar_range d) (by decide)
  | operand x => exact hName _ _ x.isName
  | negative a _ =>
    refine hEnclosed _ _ _ fun rest c hc => ?_
    cases hc
    decide
  | binary o a b iha _ =>
    refine hEnclosed _ _ _ fun rest => ?_
    rw [List.append_assoc]
    exact iha _ _
  | builtin f args _ =>
    rw [text, List.append_assoc]
    exact hName _ _ (functions_names _ f.mem)
  | custom f args _ =>
    rw [text, List.append_assoc]
    exact hName _ _ f.isName

/-- A written expression has the tokens it was written with. -/
theorem text_reads (f : Formula L) (level : Nat) : ReadsTokens L (f.text level) (f.tokens level) := by
  induction f generalizing level with
  | number n => exact fun rest hRest => .single (nextToken_number n hRest)
  | operand x =>
    intro rest hRest
    have hName := nextToken_name (L := L) x.isName hRest
    rw [nameToken_operand] at hName
    exact Reads.single hName
  | negative a ih =>
    refine readsTokens_enclosed (fun rest hRest => ?_) _
    exact .cons rfl (ih 4 rest hRest)
  | binary o a b iha ihb =>
    refine readsTokens_enclosed (fun rest hRest => ?_) _
    rw [List.append_assoc]
    refine (iha _ _ (stops_symbol o)).append (.cons ?_ (ihb _ rest hRest))
    exact nextToken_symbol o (b.text_head _ _)
  | builtin f args ih =>
    refine readsTokens_call (functions_names _ f.mem) (nameToken_builtin f) ?_ ?_
    · rw [List.forall₂_map_left_iff, List.forall₂_map_right_iff, List.forall₂_same]
      exact fun i _ => ih i 0
    · rw [Ne, List.map_eq_nil_iff]
      exact finRange_ne_nil (functions_arity _ f.mem)
  | custom f args ih =>
    refine readsTokens_call f.isName f.token ?_ ?_
    · rw [List.forall₂_map_left_iff, List.forall₂_map_right_iff, List.forall₂_same]
      exact fun i _ => ih i 0
    · rw [Ne, List.map_eq_nil_iff]
      exact finRange_ne_nil f.some

end Formula

/-! ## The tokens are a phrase -/

namespace Grammar

variable {P Q E E' B B' : TePhrase} {ks : List Token} {t : TeExpr}

theorem Arguments.mono (hE : ∀ ks t, E ks t → E' ks t) {ps : List TeExpr}
    (h : Arguments E ks ps) : Arguments E' ks ps := by
  induction h with
  | one h => exact .one (hE _ _ h)
  | more h _ ih => exact .more (hE _ _ h) ih

theorem expr_mono (hP : ∀ ks t, P ks t → Q ks t) (h : Expr P ks t) : Expr Q ks t :=
  Chain.mono (fun _ _ => Chain.mono fun _ _ => Chain.mono hP) h

theorem Base.mono (hP : ∀ ks t, P ks t → Q ks t) (h : Base P ks t) : Base Q ks t := by
  cases h with
  | constant value => exact .constant value
  | operand bound => exact .operand bound
  | function1 function h => exact .function1 function (hP _ _ h)
  | functionX function hOther h hLen =>
    exact .functionX function hOther (h.mono fun _ _ => expr_mono hP) hLen
  | custom udf h hLen hFew => exact .custom udf (h.mono fun _ _ => expr_mono hP) hLen hFew
  | list h => exact .list (Chain.mono (fun _ _ => expr_mono hP) h)

theorem Signed.mono (hB : ∀ ks t, B ks t → B' ks t) {sign : Int} (h : Signed B sign ks t) :
    Signed B' sign ks t := by
  induction h with
  | base h => exact .base (hB _ _ h)
  | plus _ ih => exact .plus ih
  | minus _ ih => exact .minus ih

theorem Signed.plain (h : B ks t) : Signed B 1 ks t :=
  (Signed.base h : Signed B 1 ks (Lexicon.signed 1 t))

theorem power_succ (n : Nat) (ks : List Token) (t : TeExpr) (h : Power n ks t) :
    Power (n + 1) ks t := by
  induction n generalizing ks t with
  | zero => exact h.elim
  | succ n ih => exact Signed.mono (fun _ _ => Base.mono ih) h

theorem power_mono {m n : Nat} (h : m ≤ n) (ks : List Token) (t : TeExpr) (hPower : Power m ks t) :
    Power n ks t := by
  induction h with
  | refl => exact hPower
  | step _ ih => exact power_succ _ _ _ ih

/-- The phrases of a level, with at most a number of powers inside one another. -/
def Phrase (n : Nat) : Nat → TePhrase
  | 0 => Expr (Power (n + 1))
  | 1 => Term (Power (n + 1))
  | 2 => Factor (Power (n + 1))
  | 3 => Power (n + 1)
  | _ => Base (Power n)

theorem phrase_mono {m n : Nat} (hLe : m ≤ n) (level : Nat) (h : Phrase m level ks t) :
    Phrase n level ks t := by
  have hPower := power_mono (Nat.succ_le_succ hLe)
  match level with
  | 0 => exact expr_mono hPower h
  | 1 => exact Chain.mono (fun _ _ => Chain.mono hPower) h
  | 2 => exact Chain.mono hPower h
  | 3 => exact hPower _ _ h
  | _ + 4 => exact Base.mono (power_mono hLe) h

/-- A phrase of a level is one of the looser level. -/
theorem phrase_loosen {n : Nat} (level : Nat) (h : Phrase n (level + 1) ks t) :
    Phrase n level ks t := by
  match level with
  | 0 => exact .one h
  | 1 => exact .one h
  | 2 => exact .one h
  | 3 => exact Signed.plain h
  | _ + 4 => exact h

theorem phrase_of_le {n low high : Nat} (hLe : low ≤ high) (h : Phrase n high ks t) :
    Phrase n low ks t := by
  induction hLe with
  | refl => exact h
  | step _ ih => exact ih (phrase_loosen _ h)

/-- A base is a phrase of every level. -/
theorem phrase_of_base {n : Nat} (level : Nat) (h : Base (Power n) ks t) : Phrase n level ks t :=
  phrase_of_le (Nat.le_max_left level 4) (by
    obtain ⟨m, hm⟩ : ∃ m, max level 4 = m + 4 := ⟨max level 4 - 4, by omega⟩
    rw [hm]
    exact h)

/-- In parentheses a phrase is one of every level. -/
theorem phrase_enclosed {n own : Nat} (level : Nat) (h : Phrase n own ks t) :
    Phrase (n + 1) level (enclosed .tokOpen .tokClose (own < level) ks) t := by
  by_cases hLevel : own < level
  · rw [enclosed, if_pos (decide_eq_true hLevel)]
    have hExpr : Expr (Power (n + 1)) ks t := phrase_of_le (Nat.zero_le own) h
    exact phrase_of_base level (.list (.one hExpr))
  · rw [enclosed, if_neg (by simpa using hLevel)]
    exact phrase_mono (Nat.le_succ n) level (phrase_of_le (Nat.le_of_not_lt hLevel) h)

/-- Two sides of an operator. -/
theorem phrase_binary {n : Nat} (o : Operator) {ls : List Token} {u : TeExpr}
    (h : Phrase n o.level ks t) (h' : Phrase n (o.level + 1) ls u) :
    Phrase n o.level (ks ++ .tokInfix o.function :: ls) (Lexicon.binary o.function t u) := by
  cases o with
  | add => exact .more h (rfl : Lexicon.exprOp (.tokInfix .add) = some (Lexicon.binary .add)) h'
  | sub => exact .more h (rfl : Lexicon.exprOp (.tokInfix .sub) = some (Lexicon.binary .sub)) h'
  | mul => exact .more h (rfl : Lexicon.termOp (.tokInfix .mul) = some (Lexicon.binary .mul)) h'
  | divide =>
    exact .more h (rfl : Lexicon.termOp (.tokInfix .divide) = some (Lexicon.binary .divide)) h'
  | fmod => exact .more h (rfl : Lexicon.termOp (.tokInfix .fmod) = some (Lexicon.binary .fmod)) h'
  | pow => exact .more h (rfl : Lexicon.factorOp (.tokInfix .pow) = some (Lexicon.binary .pow)) h'

theorem arguments_separated {kss : List (List Token)} {ps : List TeExpr}
    (h : List.Forall₂ E kss ps) (hSome : ps ≠ []) : Arguments E (separated .tokSep kss) ps := by
  induction h with
  | nil => exact absurd rfl hSome
  | cons hFirst hOthers ih =>
    cases hOthers with
    | nil => exact .one hFirst
    | cons hSecond hRest => exact .more hFirst (ih (List.cons_ne_nil _ _))

/-- A function with its arguments in parentheses. -/
theorem base_function {n : Nat} (function : ExprType) {kss : List (List Token)} {ps : List TeExpr}
    (h : List.Forall₂ (Expr (Power n)) kss ps) (hSome : ps ≠ []) :
    Base (Power (n + 1)) (.teFunction ps.length function :: .tokOpen ::
      (separated .tokSep kss ++ [.tokClose])) (.teFunction function ps) := by
  by_cases hOne : ps.length = 1
  · -- parentheses around the only argument are a base of their own
    obtain ⟨t, rfl⟩ := List.length_eq_one_iff.mp hOne
    cases h with
    | cons hFirst hOthers =>
      cases hOthers
      have hInner : Base (Power n) _ t := .list (.one hFirst)
      exact .function1 function (Signed.plain hInner)
  · exact .functionX function hOne (arguments_separated
      (h.imp fun _ _ => expr_mono (power_succ n)) hSome) rfl

end Grammar

namespace Formula

variable {L : Lexicon}

theorem trees_ne_nil {n : Nat} (args : Fin n → Formula L) (h : n ≠ 0) :
    (List.finRange n).map (fun i => (args i).tree) ≠ [] := by
  rw [Ne, List.map_eq_nil_iff]
  exact finRange_ne_nil h

/-- The arguments of a function have a common bound on their powers. -/
theorem arguments_bound {m : Nat} (args : Fin m → Formula L)
    (h : ∀ i, ∃ n, ∀ level, Phrase n level ((args i).tokens level) (args i).tree) :
    ∃ n, List.Forall₂ (Expr (Power (n + 1)))
      ((List.finRange m).map fun i => (args i).tokens 0)
      ((List.finRange m).map fun i => (args i).tree) := by
  choose bound hBound using h
  refine ⟨Finset.univ.sup bound, ?_⟩
  rw [List.forall₂_map_left_iff, List.forall₂_map_right_iff, List.forall₂_same]
  intro i _
  exact phrase_mono (Finset.le_sup (Finset.mem_univ i)) 0 (hBound i 0)

/-- The tokens of a written expression are a phrase of its tree. -/
theorem tokens_phrase (f : Formula L) :
    ∃ n, ∀ level, Phrase n level (f.tokens level) f.tree := by
  induction f with
  | number n => exact ⟨0, fun level => phrase_of_base level (.constant _)⟩
  | operand x => exact ⟨0, fun level => phrase_of_base level (.operand _)⟩
  | negative a ih =>
    obtain ⟨n, ha⟩ := ih
    have hSigned : Phrase n 3 (.tokInfix .sub :: a.tokens 4) (tree (.negative a)) :=
      Signed.minus (Signed.base (ha 4))
    exact ⟨n + 1, fun level => phrase_enclosed level hSigned⟩
  | binary o a b iha ihb =>
    obtain ⟨m, ha⟩ := iha
    obtain ⟨n, hb⟩ := ihb
    have ha' := phrase_mono (Nat.le_max_left m n) o.level (ha o.level)
    have hb' := phrase_mono (Nat.le_max_right m n) (o.level + 1) (hb (o.level + 1))
    have hBoth : Phrase (max m n) o.level
        (a.tokens o.level ++ .tokInfix o.function :: b.tokens (o.level + 1))
        (tree (.binary o a b)) := by
      exact phrase_binary o ha' hb'
    exact ⟨max m n + 1, fun level => phrase_enclosed level hBoth⟩
  | builtin f args ih =>
    obtain ⟨n, hArgs⟩ := arguments_bound args ih
    have hBase := base_function f.builtin.function hArgs (trees_ne_nil args (functions_arity _ f.mem))
    rw [List.length_map, List.length_finRange] at hBase
    exact ⟨n + 2, fun level => phrase_of_base level hBase⟩
  | custom f args ih =>
    obtain ⟨n, hArgs⟩ := arguments_bound args ih
    have hBase := Base.custom f.udf
      (arguments_separated hArgs (trees_ne_nil args f.some)) (by simp) f.few
    exact ⟨n + 1, fun level => phrase_of_base level hBase⟩

theorem text_lexes {L : Lexicon} (f : Formula L) : Lexes L (f.text 0) (f.tokens 0) := by
  have hReads := f.text_reads 0 [] (fun c hc => nomatch hc)
  rw [List.append_nil] at hReads
  exact hReads.lexes

theorem tokens_accepted {L : Lexicon} (f : Formula L) : Accepted (f.tokens 0) f.tree := by
  obtain ⟨n, hPhrase⟩ := f.tokens_phrase
  exact ⟨n + 1, .one (hPhrase 0)⟩

end Formula

/-- The compiler gives the tree of every written expression. -/
theorem jugTeCompile_text {L : Lexicon} (f : Formula L) :
    L.jugTeCompile (f.text 0) = .ok (.ok f.tree) :=
  Lexicon.jugTeCompile_complete f.text_lexes f.tokens_accepted

/-- A power of a negative number needs no parentheses, a negative power does. -/
example {L : Lexicon} (x y : Variable L) :
    (Formula.binary .pow (.negative (.operand x)) (.operand y)).text 0 =
        '-' :: x.name.toList ++ '^' :: y.name.toList ∧
      (Formula.negative (.binary .pow (.operand x) (.operand y))).text 0 =
        '-' :: '(' :: (x.name.toList ++ '^' :: y.name.toList ++ [')']) :=
  ⟨rfl, rfl⟩

end IronArray
