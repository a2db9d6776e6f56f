import IronArray.Minjugg.Grammar
import Mathlib.Data.Fin.Tuple.Basic
import Mathlib.Data.List.OfFn

/-!
# Written expressions

Expressions as a user writes them, with as few parentheses as the grammar allows: a level says how
tightly an expression binds, and parentheses stand around an expression in a place that asks for a
tighter one. The compiler reads every expression as it was written: `jugTeCompile_text`. Signs bind
tighter than powers, so `-x^y` is the power of `-x`.
-/

namespace IronArray

open Phrases Grammar

/-! ## Words -/

/-- A text that is read as one name. -/
def IsName (text : List Char) : Prop :=
  ('a' ≤ text.headD ' ' ∧ text.headD ' ' ≤ 'z') ∧ ∀ c ∈ text, isNameChar c = true

instance (text : List Char) : Decidable (IsName text) :=
  @instDecidableAnd _ _ inferInstance (List.decidableBAll _ text)

/-- No word goes on in the text. -/
def Stops (text : List Char) : Prop :=
  ∀ c ∈ text.head?, isNameChar c = false ∧ ¬ ('A' ≤ c ∧ c ≤ 'Z')

theorem isNameChar_toNat {c : Char} (h : isNameChar c = true) : c.toNat ≠ 0 := by
  intro hZero
  have hEq : c = Char.ofNat 0 := by
    rw [← Char.ofNat_toNat c, hZero]
  subst hEq
  exact absurd h (by decide)

theorem IsName.word {text : List Char} (h : IsName text) : Word text :=
  fun c hc => isNameChar_toNat (h.2 c hc)

/-- A digit, as a character. -/
def digitChar (d : Fin 10) : Char := Char.ofNat ('0'.toNat + d)

/-- Digits, as characters. -/
def digitChars (ds : List (Fin 10)) : List Char := ds.map digitChar

/-- The number that digits stand for. -/
def digitsValue (ds : List (Fin 10)) : Nat := Nat.ofDigits 10 (ds.map Fin.val).reverse

/-- A decimal exponent: its sign and its digits. -/
structure Exponent where
  negative : Bool
  digits : List (Fin 10)
  some : digits ≠ []

/-- A decimal number: digits, digits behind a point, and an exponent. -/
structure Numeral where
  whole : List (Fin 10)
  part : List (Fin 10)
  exponent : Option Exponent
  some : whole ≠ []

namespace Exponent

def text (e : Exponent) : List Char :=
  'e' :: ((if e.negative then ['-'] else []) ++ digitChars e.digits)

def value (e : Exponent) : Int := (if e.negative then -1 else 1) * digitsValue e.digits

end Exponent

namespace Numeral

def text (n : Numeral) : List Char :=
  digitChars n.whole ++ ((if n.part = [] then [] else '.' :: digitChars n.part) ++
    (n.exponent.map Exponent.text).getD [])

def value (n : Numeral) : ℚ :=
  digitsValue (n.whole ++ n.part) *
    10 ^ ((n.exponent.map Exponent.value).getD 0 - n.part.length)

end Numeral

/-! ### Reading numbers -/

theorem digitValue_digitChar (d : Fin 10) : digitValue 10 (digitChar d) = some d.val := by
  revert d
  decide

theorem digitChar_range (d : Fin 10) : '0' ≤ digitChar d ∧ digitChar d ≤ '9' := by
  revert d
  decide

theorem digits_digitChars (ds : List (Fin 10)) {rest : List Char}
    (hRest : ∀ c ∈ rest.head?, digitValue 10 c = none) :
    digits 10 (digitChars ds ++ rest) = (ds.map Fin.val, rest) := by
  induction ds with
  | nil =>
    cases rest with
    | nil => rfl
    | cons c cs =>
      show digits 10 (c :: cs) = _
      rw [digits, hRest c rfl]
      rfl
  | cons d ds ih =>
    show digits 10 (digitChar d :: (digitChars ds ++ rest)) = _
    rw [digits, digitValue_digitChar]
    simp only [ih]
    rfl

theorem Stops.digitValue {text : List Char} (h : Stops text) :
    ∀ c ∈ text.head?, digitValue 10 c = none := by
  intro c hc
  have hName := (h c hc).1
  simp only [isNameChar, decide_eq_false_iff_not, not_or] at hName
  simp [IronArray.digitValue, hName.2.1]

theorem Stops.ne {text : List Char} (h : Stops text) {c : Char} {cs : List Char}
    (hText : text = c :: cs) {d : Char} (hd : isNameChar d = true ∨ 'A' ≤ d ∧ d ≤ 'Z') :
    c ≠ d := by
  rintro rfl
  have hStop := h c (by rw [hText]; rfl)
  rcases hd with hName | hUpper
  · rw [hStop.1] at hName
    cases hName
  · exact hStop.2 hUpper

theorem exponent_stops {text : List Char} (h : Stops text) : exponent 'e' 'E' text = (0, text) := by
  unfold exponent
  split
  next c cs =>
    rw [if_neg]
    rintro (rfl | rfl)
    · exact h.ne rfl (.inl (by decide)) rfl
    · exact h.ne rfl (.inr (by decide)) rfl
  next => rfl

theorem exponent_text (e : Exponent) {rest : List Char} (hRest : Stops rest) :
    exponent 'e' 'E' (e.text ++ rest) = (e.value, rest) := by
  have hDigits := digits_digitChars e.digits hRest.digitValue
  have hSome : e.digits.map Fin.val ≠ [] := by simpa using e.some
  show exponent 'e' 'E' ('e' :: (((if e.negative then ['-'] else []) ++ digitChars e.digits) ++
    rest)) = _
  rw [exponent, if_pos (.inl rfl)]
  obtain ⟨d, ds, hCons⟩ := List.exists_cons_of_ne_nil e.some
  have hSign : exponentSign (((if e.negative then ['-'] else []) ++ digitChars e.digits) ++ rest) =
      (if e.negative then -1 else 1, digitChars e.digits ++ rest) := by
    cases e.negative with
    | true => rfl
    | false =>
      have hRange := digitChar_range d
      have hPlus : digitChar d ≠ '+' := fun h => absurd hRange.1 (by rw [h]; decide)
      have hMinus : digitChar d ≠ '-' := fun h => absurd hRange.1 (by rw [h]; decide)
      rw [hCons]
      show exponentSign (digitChar d :: (digitChars ds ++ rest)) = _
      unfold exponentSign
      split
      next h => exact absurd (List.cons.inj h).1 hPlus
      next h => exact absurd (List.cons.inj h).1 hMinus
      next => rfl
  simp only [hSign, hDigits, if_neg hSome]
  rfl

theorem head_append {α : Type} {xs ys : List α} {x : α} (h : x ∈ (xs ++ ys).head?) :
    x ∈ xs.head? ∨ x ∈ ys.head? := by
  cases xs with
  | nil => exact .inr h
  | cons y ys => exact .inl h

theorem head_digitChars {ds : List (Fin 10)} {c : Char} (h : c ∈ (digitChars ds).head?) :
    '0' ≤ c ∧ c ≤ '9' := by
  cases ds with
  | nil => cases h
  | cons d ds =>
    cases h
    exact digitChar_range d

/-- What stands behind the digits of a number. -/
theorem significand_text (n : Numeral) {rest : List Char}
    (hRest : ∀ c ∈ rest.head?, digitValue 10 c = none ∧ c ≠ '.') :
    significand 10 (digitChars n.whole ++
      ((if n.part = [] then [] else '.' :: digitChars n.part) ++ rest)) =
      some (n.whole.map Fin.val, n.part.map Fin.val, rest) := by
  have hSome : n.whole.map Fin.val ≠ [] := by simpa using n.some
  by_cases hPart : n.part = []
  · have hWhole := digits_digitChars n.whole (fun c hc => (hRest c hc).1)
    simp only [if_pos hPart, List.nil_append, significand, hWhole]
    split
    next rest' => exact absurd rfl (hRest '.' rfl).2
    next => rw [if_neg hSome, hPart]; rfl
  · have hWhole : digits 10 (digitChars n.whole ++ '.' :: (digitChars n.part ++ rest)) =
        (n.whole.map Fin.val, '.' :: (digitChars n.part ++ rest)) :=
      digits_digitChars n.whole (fun c hc => by cases hc; rfl)
    have hPartDigits := digits_digitChars n.part (fun c hc => (hRest c hc).1)
    simp only [if_neg hPart, List.cons_append, significand, hWhole, hPartDigits]
    rw [if_neg (fun h => hSome h.1)]

/-- A number is read as it was written. -/
theorem strtod_text (n : Numeral) {rest : List Char} (hRest : Stops rest) :
    strtod (n.text ++ rest) = (n.value, rest) := by
  have hText : n.text ++ rest = digitChars n.whole ++
      ((if n.part = [] then [] else '.' :: digitChars n.part) ++
        ((n.exponent.map Exponent.text).getD [] ++ rest)) := by
    simp only [Numeral.text, List.append_assoc]
  have hExponent : exponent 'e' 'E' ((n.exponent.map Exponent.text).getD [] ++ rest) =
      ((n.exponent.map Exponent.value).getD 0, rest) := by
    cases n.exponent with
    | none => exact exponent_stops hRest
    | some e => exact exponent_text e hRest
  have hBehind : ∀ c ∈ ((n.exponent.map Exponent.text).getD [] ++ rest).head?,
      digitValue 10 c = none ∧ c ≠ '.' := by
    intro c hc
    cases hCase : n.exponent with
    | none =>
      rw [hCase] at hc
      refine ⟨hRest.digitValue c hc, ?_⟩
      rintro rfl
      exact absurd (hRest '.' hc).1 (by decide)
    | some e =>
      rw [hCase] at hc
      cases hc
      exact ⟨rfl, by decide⟩
  have hDecimal : decimal (n.text ++ rest) = (n.value, rest) := by
    rw [hText]
    unfold decimal
    simp only [significand_text n hBehind, hExponent]
    rw [Numeral.value, digitsValue, List.map_append, List.length_map]
  obtain ⟨d, ds, hCons⟩ := List.exists_cons_of_ne_nil n.some
  unfold strtod
  split
  next x cs hEq =>
    -- behind the first digit stands no letter of a hexadecimal number
    have hTail : x :: cs = digitChars ds ++
        ((if n.part = [] then [] else '.' :: digitChars n.part) ++
          ((n.exponent.map Exponent.text).getD [] ++ rest)) := by
      rw [hText, hCons] at hEq
      exact (List.cons.inj hEq).2.symm
    have hHead : x ∈ (x :: cs).head? := rfl
    have hx : ¬ (x = 'x' ∨ x = 'X') := by
      rw [hTail] at hHead
      rcases head_append hHead with hDigit | hHead
      · rintro (rfl | rfl)
        · exact absurd (head_digitChars hDigit) (by decide)
        · exact absurd (head_digitChars hDigit) (by decide)
      rcases head_append hHead with hPoint | hHead
      · by_cases hPart : n.part = []
        · rw [if_pos hPart] at hPoint
          cases hPoint
        · rw [if_neg hPart] at hPoint
          cases hPoint
          decide
      rcases head_append hHead with hLetter | hHead
      · cases hCase : n.exponent with
        | none =>
          rw [hCase] at hLetter
          cases hLetter
        | some e =>
          rw [hCase] at hLetter
          cases hLetter
          decide
      · rintro (rfl | rfl)
        · exact absurd (hRest _ hHead).1 (by decide)
        · exact (hRest _ hHead).2 (by decide)
    rw [if_neg hx]
    exact hDecimal
  next => exact hDecimal

/-! ## Expressions -/

/-- The operators with two sides. -/
inductive Operator
  | add | sub | mul | divide | fmod | pow
deriving DecidableEq

namespace Operator

def function : Operator → ExprType
  | add => .add
  | sub => .sub
  | mul => .mul
  | divide => .divide
  | fmod => .fmod
  | pow => .pow

def symbol : Operator → Char
  | add => '+'
  | sub => '-'
  | mul => '*'
  | divide => '/'
  | fmod => '%'
  | pow => '^'

/-- How tightly an operator binds. -/
def level : Operator → Nat
  | add | sub => 0
  | mul | divide | fmod => 1
  | pow => 2

end Operator

/-- An operand that has a name. -/
structure Variable (L : Lexicon) where
  name : String
  mem : name ∈ L.lookup
  isName : IsName name.toList

/-- A built-in function whose name no operand has. -/
structure Function (L : Lexicon) where
  builtin : Builtin
  mem : builtin ∈ functions
  free : builtin.name ∉ L.lookup

/-- A registered function under its full name, of one to seven arguments. -/
structure CustomFunction (L : Lexicon) where
  name : List Char
  isName : IsName name
  udf : Udf
  token : L.nameToken name = .teCustom udf
  some : udf.numArgs ≠ 0
  few : udf.numArgs < Lexicon.customSlots

/-- Expressions. -/
inductive Formula (L : Lexicon)
  | number (n : Numeral)
  | operand (x : Variable L)
  | negative (a : Formula L)
  | binary (o : Operator) (a b : Formula L)
  | builtin (f : Function L) (args : Fin f.builtin.arity → Formula L)
  | custom (f : CustomFunction L) (args : Fin f.udf.numArgs → Formula L)

/-- Something in parentheses where it needs them. -/
def enclosed {α : Type} (opening closing : α) (needed : Bool) (xs : List α) : List α :=
  if needed then opening :: (xs ++ [closing]) else xs

/-- Parts with a separator between each two of them. -/
def separated {α : Type} (sep : α) : List (List α) → List α
  | [] => []
  | [xs] => xs
  | xs :: xss => xs ++ sep :: separated sep xss

namespace Formula

variable {L : Lexicon}

/-- The tree of an expression. -/
def tree : Formula L → TeExpr
  | number n => .teConstant (L.toDouble n.value)
  | operand x => .teVariable x.name
  | negative a => .teFunction .negate [a.tree]
  | binary o a b => .teFunction o.function [a.tree, b.tree]
  | builtin f args => .teFunction f.builtin.function ((List.finRange _).map fun i => (args i).tree)
  | custom f args => .teCustom f.udf ((List.finRange _).map fun i => (args i).tree)

/-- An expression as it is written in a place that asks for a level. -/
def text : Formula L → Nat → List Char
  | number n, _ => n.text
  | operand x, _ => x.name.toList
  | negative a, level => enclosed '(' ')' (3 < level) ('-' :: a.text 4)
  | binary o a b, level =>
    enclosed '(' ')' (o.level < level) (a.text o.level ++ o.symbol :: b.text (o.level + 1))
  | builtin f args, _ => f.builtin.name.toList ++
      '(' :: (separated ',' ((List.finRange _).map fun i => (args i).text 0) ++ [')'])
  | custom f args, _ => f.name ++
      '(' :: (separated ',' ((List.finRange _).map fun i => (args i).text 0) ++ [')'])

/-- The tokens of an expression in a place that asks for a level. -/
def tokens : Formula L → Nat → List Token
  | number n, _ => [.tokNumber (L.toDouble n.value)]
  | operand x, _ => [.tokVariable x.name]
  | negative a, level => enclosed .tokOpen .tokClose (3 < level) (.tokInfix .sub :: a.tokens 4)
  | binary o a b, level => enclosed .tokOpen .tokClose (o.level < level)
      (a.tokens o.level ++ .tokInfix o.function :: b.tokens (o.level + 1))
  | builtin f args, _ => .teFunction f.builtin.arity f.builtin.function :: .tokOpen ::
      (separated .tokSep ((List.finRange _).map fun i => (args i).tokens 0) ++ [.tokClose])
  | custom f args, _ => .teCustom f.udf :: .tokOpen ::
      (separated .tokSep ((List.finRange _).map fun i => (args i).tokens 0) ++ [.tokClose])

end Formula

/-! ## Reading tokens -/

/-- The tokens at the beginning of a text, and the text behind them. -/
inductive Reads (L : Lexicon) : List Char → List Token → List Char → Prop
  | nil (text : List Char) : Reads L text [] text
  | cons {text text' rest : List Char} {k : Token} {ks : List Token} :
      L.nextToken text = (k, text') → Reads L text' ks rest → Reads L text (k :: ks) rest

namespace Reads

variable {L : Lexicon} {text text' rest : List Char} {k : Token} {ks ls : List Token}

theorem append (h : Reads L text ks text') (h' : Reads L text' ls rest) :
    Reads L text (ks ++ ls) rest := by
  induction h with
  | nil => exact h'
  | cons hToken _ ih => exact .cons hToken (ih h')

theorem single (h : L.nextToken text = (k, rest)) : Reads L text [k] rest := .cons h (.nil _)

theorem spans (h : Reads L text ks rest) (t t' : Token) :
    Spans L.stream (L.stream.next ⟨text, t⟩) ks (L.stream.next ⟨rest, t'⟩) := by
  induction h generalizing t with
  | nil text => exact .nil _
  | @cons text text' rest k ks hToken _ ih =>
    have hNext : L.stream.next ⟨text, t⟩ = ⟨text', k⟩ := by
      show (⟨(L.nextToken text).2, (L.nextToken text).1⟩ : TeState) = _
      rw [hToken]
    rw [hNext]
    exact .of_tok rfl (ih k)

theorem lexes (h : Reads L text ks []) : Lexes L text ks :=
  ⟨_, h.spans .tokEnd .tokEnd, rfl⟩

end Reads

section Words

variable {L : Lexicon} {text rest : List Char}

theorem nextToken_name (hName : IsName text) (hRest : Stops rest) :
    L.nextToken (text ++ rest) = (L.nameToken text, rest) := by
  obtain ⟨hLetter, hChars⟩ := hName
  cases text with
  | nil => exact absurd hLetter (by decide)
  | cons c cs =>
    have hLetter : 'a' ≤ c ∧ c ≤ 'z' := hLetter
    have hDigit : ¬ ('0' ≤ c ∧ c ≤ '9' ∨ c = '.') := by
      rintro (h | rfl)
      · exact absurd (Char.le_trans hLetter.1 h.2) (by decide)
      · exact absurd hLetter (by decide)
    have hTake : (rest.takeWhile isNameChar) = [] := by
      cases rest with
      | nil => rfl
      | cons d ds => rw [List.takeWhile_cons, (hRest d rfl).1]; rfl
    have hDrop : (rest.dropWhile isNameChar) = rest := by
      cases rest with
      | nil => rfl
      | cons d ds => rw [List.dropWhile_cons, (hRest d rfl).1]; rfl
    rw [List.cons_append, Lexicon.nextToken, if_neg hDigit, if_pos hLetter, ← List.cons_append,
      List.takeWhile_append_of_pos hChars, List.dropWhile_append_of_pos hChars, hTake, hDrop,
      List.append_nil]

theorem nextToken_number (n : Numeral) (hRest : Stops rest) :
    L.nextToken (n.text ++ rest) = (.tokNumber (L.toDouble n.value), rest) := by
  have hValue := strtod_text n hRest
  obtain ⟨d, ds, hCons⟩ := List.exists_cons_of_ne_nil n.some
  obtain ⟨cs, hText⟩ : ∃ cs, n.text ++ rest = digitChar d :: cs := by
    rw [Numeral.text, hCons]
    exact ⟨_, rfl⟩
  rw [hText] at hValue ⊢
  rw [Lexicon.nextToken, if_pos (.inl (digitChar_range d)), hValue]

/-- The names of the built-in functions are names. -/
theorem functions_names : ∀ f ∈ functions, IsName f.name.toList := by decide

theorem nameToken_operand (x : Variable L) : L.nameToken x.name.toList = .tokVariable x.name := by
  rw [Lexicon.nameToken, Lexicon.findLookup_mem x.isName.word x.mem]

theorem nameToken_builtin (f : Function L) : L.nameToken f.builtin.name.toList =
    .teFunction f.builtin.arity f.builtin.function := by
  have hWord := (functions_names _ f.mem).word
  rw [Lexicon.nameToken, Lexicon.findLookup_none hWord f.free,
    (findBuiltin_eq_some hWord).mpr ⟨f.mem, rfl⟩]

theorem stops_cons {c : Char} {cs : List Char}
    (h : isNameChar c = false ∧ ¬ ('A' ≤ c ∧ c ≤ 'Z')) : Stops (c :: cs) := by
  intro d hd
  cases hd
  exact h

theorem nextToken_symbol (o : Operator) (hStar : ∀ c ∈ rest.head?, c ≠ '*') :
    L.nextToken (o.symbol :: rest) = (.tokInfix o.function, rest) := by
  cases o with
  | mul =>
    cases rest with
    | nil => rfl
    | cons c cs =>
      have hc := hStar c rfl
      have hSymbol : symbolToken '*' (c :: cs) = some (.tokInfix .mul, c :: cs) := by
        simp only [symbolToken]
        split
        next h => exact absurd (List.cons.inj h).1 hc
        next => rfl
      show L.nextToken ('*' :: c :: cs) = _
      rw [Lexicon.nextToken, if_neg (by decide), if_neg (by decide), hSymbol]
      rfl
  | _ => rfl

theorem stops_symbol (o : Operator) : Stops (o.symbol :: rest) :=
  stops_cons (by cases o <;> decide)

end Words

end IronArray
