import IronArray.Core.Number
import IronArray.Language.Bisection
import Mathlib.Data.List.Lex
import Mathlib.Data.Nat.Digits.Defs

/-!
# Tokens of expressions

`next_token` of `tinyexpr.c` reads numbers, names, operators and punctuation. A name is an operand, a
built-in function or a function of a registered library, in this order. The built-in functions lie
in a table that is searched by bisection.
-/

namespace IronArray

/-! ## Functions -/

/-- `te_expr_type_t`. -/
inductive ExprType
  | add | sub | mul | divide | negate | comma | abs | acos | asin | atan | atan2 | ceil | cos | cosh
  | exp | floor | log | log10 | pow | sin | sinh | sqrt | tan | tanh | fmod | min | max | custom
deriving DecidableEq, Repr

/-- `jug_udf_function_t`: the number of arguments and the address of the code. -/
structure Udf where
  numArgs : Nat
  functionPtr : Nat
deriving DecidableEq

/-- `jug_udf_library_t`. -/
structure UdfLibrary where
  name : String
  funcs : List (String × Udf)

/-- `jug_udf_registry_t`. -/
abbrev UdfRegistry := List UdfLibrary

/-- `jug_udf_func_lookup`. -/
def jugUdfFuncLookup (registry : UdfRegistry) (name : List Char) : Option Udf :=
  match name.splitOn '.' with
  | [lib, decl] => do
    let library ← registry.find? fun l => l.name.toList = lib
    let func ← library.funcs.find? fun f => f.1.toList = (decl.splitOn '(').headD []
    pure func.2
  | _ => none

/-- An entry of the table of built-in functions. -/
structure Builtin where
  name : String
  function : ExprType
  arity : Nat
deriving DecidableEq

/-- `functions`. -/
def functions : List Builtin :=
  [⟨"abs", .abs, 1⟩, ⟨"absolute", .abs, 1⟩, ⟨"acos", .acos, 1⟩, ⟨"arccos", .acos, 1⟩,
    ⟨"arcsin", .asin, 1⟩, ⟨"arctan", .atan, 1⟩, ⟨"arctan2", .atan2, 2⟩, ⟨"asin", .asin, 1⟩,
    ⟨"atan", .atan, 1⟩, ⟨"atan2", .atan2, 2⟩, ⟨"ceil", .ceil, 1⟩, ⟨"cos", .cos, 1⟩,
    ⟨"cosh", .cosh, 1⟩, ⟨"exp", .exp, 1⟩, ⟨"floor", .floor, 1⟩, ⟨"log", .log, 1⟩,
    ⟨"log10", .log10, 1⟩, ⟨"max", .max, 2⟩, ⟨"min", .min, 2⟩, ⟨"negate", .negate, 1⟩,
    ⟨"negative", .negate, 1⟩, ⟨"pow", .pow, 2⟩, ⟨"power", .pow, 2⟩, ⟨"sin", .sin, 1⟩,
    ⟨"sinh", .sinh, 1⟩, ⟨"sqrt", .sqrt, 1⟩, ⟨"tan", .tan, 1⟩, ⟨"tanh", .tanh, 1⟩]

/-- `strncmp` of a name with an entry, over the length of the name. -/
def strncmp : List Char → List Char → Int
  | [], _ => 0
  | c :: _, [] => c.toNat
  | c :: cs, d :: ds => if c = d then strncmp cs ds else (c.toNat : Int) - d.toNat

/-- The character of a string at a place, and zero at its end. -/
def letterAt (text : List Char) (i : Nat) : Int := ((text[i]?).map Char.toNat).getD 0

/-- The comparison of a name with an entry of the table. -/
def compareEntry (name entry : List Char) : Int :=
  let c := strncmp name entry
  if c = 0 then 0 - letterAt entry name.length else c

/-- `find_builtin`. -/
def findBuiltin (name : List Char) : Option Builtin :=
  (Bisection.bisect (fun i => compareEntry name ((functions.map fun f => f.name.toList).getD i []))
    functions.length 0 (functions.length - 1)).bind fun i => functions[i]?

/-! ## Numbers -/

/-- The value of a digit. -/
def digitValue (base : Nat) (c : Char) : Option Nat :=
  if '0' ≤ c ∧ c ≤ '9' then some (c.toNat - '0'.toNat)
  else if base = 16 ∧ 'a' ≤ c ∧ c ≤ 'f' then some (c.toNat - 'a'.toNat + 10)
  else if base = 16 ∧ 'A' ≤ c ∧ c ≤ 'F' then some (c.toNat - 'A'.toNat + 10)
  else none

/-- The digits in front of a text. -/
def digits (base : Nat) : List Char → List Nat × List Char
  | [] => ([], [])
  | c :: cs =>
    match digitValue base c with
    | some d => (d :: (digits base cs).1, (digits base cs).2)
    | none => ([], c :: cs)

/-- Digits with a point in front, behind or among them. -/
def significand (base : Nat) (text : List Char) : Option (List Nat × List Nat × List Char) :=
  let (whole, rest) := digits base text
  match rest with
  | '.' :: rest' =>
    let (part, rest'') := digits base rest'
    if whole = [] ∧ part = [] then none else some (whole, part, rest'')
  | _ => if whole = [] then none else some (whole, [], rest)

/-- The sign in front of the digits of an exponent. -/
def exponentSign : List Char → Int × List Char
  | '+' :: cs => (1, cs)
  | '-' :: cs => (-1, cs)
  | cs => (1, cs)

/-- An exponent behind one of two letters. Without digits there is none. -/
def exponent (lower upper : Char) (text : List Char) : Int × List Char :=
  match text with
  | c :: cs =>
    if c = lower ∨ c = upper then
      let (sign, cs) := exponentSign cs
      let (ds, rest) := digits 10 cs
      if ds = [] then (0, text) else (sign * (Nat.ofDigits 10 ds.reverse : Nat), rest)
    else (0, text)
  | [] => (0, [])

/-- A decimal number. -/
def decimal (text : List Char) : ℚ × List Char :=
  match significand 10 text with
  | some (whole, part, rest) =>
    let (e, rest) := exponent 'e' 'E' rest
    ((Nat.ofDigits 10 (whole ++ part).reverse : Nat) * 10 ^ (e - part.length), rest)
  | none => (0, text)

/-- `strtod` on a text that begins with a digit or a point, before its result is rounded: the value
and what is left of the text. Where there is no number nothing is consumed. -/
def strtod (text : List Char) : ℚ × List Char :=
  match text with
  | '0' :: x :: cs =>
    if x = 'x' ∨ x = 'X' then
      match significand 16 cs with
      | some (whole, part, rest) =>
        let (e, rest) := exponent 'p' 'P' rest
        ((Nat.ofDigits 16 (whole ++ part).reverse : Nat) * 2 ^ (e - 4 * part.length), rest)
      | none => decimal text
    else decimal text
  | _ => decimal text

/-! ## Tokens -/

/-- The type of a token, with its value. -/
inductive Token
  | tokError | tokEnd | tokSep | tokOpen | tokClose
  | tokNumber (value : FP)
  | tokVariable (bound : String)
  | tokInfix (function : ExprType)
  | teFunction (arity : Nat) (function : ExprType)
  | teCustom (context : Udf)
deriving DecidableEq

/-- What names and numbers stand for: the rounding of `strtod`, the names of the operands and the
registered functions. -/
structure Lexicon where
  toDouble : ℚ → FP
  lookup : List String
  registry : UdfRegistry

/-- A character of a name. -/
def isNameChar (c : Char) : Bool :=
  'a' ≤ c ∧ c ≤ 'z' ∨ '0' ≤ c ∧ c ≤ '9' ∨ c = '_' ∨ c = '.'

/-- An operator or a special character. White space is no token. -/
def symbolToken (c : Char) (cs : List Char) : Option (Token × List Char) :=
  match c with
  | '+' => some (.tokInfix .add, cs)
  | '-' => some (.tokInfix .sub, cs)
  | '*' =>
    match cs with
    | '*' :: cs => some (.tokInfix .pow, cs)
    | _ => some (.tokInfix .mul, cs)
  | '/' => some (.tokInfix .divide, cs)
  | '^' => some (.tokInfix .pow, cs)
  | '%' => some (.tokInfix .fmod, cs)
  | '(' => some (.tokOpen, cs)
  | ')' => some (.tokClose, cs)
  | ',' => some (.tokSep, cs)
  | ' ' | '\t' | '\n' | '\r' => none
  | _ => some (.tokError, cs)

namespace Lexicon

variable (L : Lexicon)

/-- `find_lookup`. -/
def findLookup (name : List Char) : Option String :=
  L.lookup.find? fun var => strncmp name var.toList = 0 ∧ var.toList[name.length]? = none

/-- `find_custom`. -/
def findCustom (name : List Char) : Option Udf := jugUdfFuncLookup L.registry name

/-- The token of a name. -/
def nameToken (name : List Char) : Token :=
  match L.findLookup name with
  | some var => .tokVariable var
  | none =>
    match findBuiltin name with
    | some f => .teFunction f.arity f.function
    | none =>
      match L.findCustom name with
      | some udf => .teCustom udf
      | none => .tokError

/-- `next_token`: the next token of a text, and what is left of the text. -/
def nextToken : List Char → Token × List Char
  | [] => (.tokEnd, [])
  | c :: cs =>
    if '0' ≤ c ∧ c ≤ '9' ∨ c = '.' then
      (.tokNumber (L.toDouble (strtod (c :: cs)).1), (strtod (c :: cs)).2)
    else if 'a' ≤ c ∧ c ≤ 'z' then
      (L.nameToken ((c :: cs).takeWhile isNameChar), (c :: cs).dropWhile isNameChar)
    else
      match symbolToken c cs with
      | some token => token
      | none => nextToken cs

end Lexicon

/-! ## The table of built-in functions -/

/-- A text without the character that ends one in C. -/
def Word (text : List Char) : Prop := ∀ c ∈ text, c.toNat ≠ 0

instance (text : List Char) : Decidable (Word text) := List.decidableBAll _ text

section Compare

variable {c d : Char} {name entry cs ds : List Char}

theorem letterAt_cons (i : Nat) : letterAt (c :: cs) (i + 1) = letterAt cs i := rfl

theorem compareEntry_cons (cs ds : List Char) (c : Char) :
    compareEntry (c :: cs) (c :: ds) = compareEntry cs ds := by
  simp only [compareEntry, strncmp, if_true, List.length_cons, letterAt_cons]

theorem compareEntry_ne (h : c ≠ d) :
    compareEntry (c :: cs) (d :: ds) = (c.toNat : Int) - d.toNat := by
  have hToNat : c.toNat ≠ d.toNat := fun hEq => h (Char.toNat_inj.mp hEq)
  simp only [compareEntry, strncmp, if_neg h]
  rw [if_neg (by omega)]

/-- A name agrees with an entry that spells it. -/
theorem compareEntry_eq_zero (hName : Word name) (hEntry : Word entry) :
    compareEntry name entry = 0 ↔ entry = name := by
  induction name generalizing entry with
  | nil =>
    cases entry with
    | nil => exact ⟨fun _ => rfl, fun _ => rfl⟩
    | cons d ds =>
      have hZero := hEntry d List.mem_cons_self
      have hCompare : compareEntry [] (d :: ds) = 0 - (d.toNat : Int) := rfl
      rw [hCompare]
      constructor
      · omega
      · intro h
        cases h
  | cons c cs ih =>
    have hZero := hName c List.mem_cons_self
    cases entry with
    | nil =>
      have hCompare : compareEntry (c :: cs) [] = c.toNat := by
        simp [compareEntry, strncmp, hZero]
      rw [hCompare]
      constructor
      · omega
      · intro h
        cases h
    | cons d ds =>
      by_cases hEq : c = d
      · subst hEq
        rw [compareEntry_cons, ih (fun x hx => hName x (List.mem_cons_of_mem _ hx))
          fun x hx => hEntry x (List.mem_cons_of_mem _ hx)]
        exact ⟨fun h => by rw [h], fun h => (List.cons.inj h).2⟩
      · have hToNat : c.toNat ≠ d.toNat := fun h => hEq (Char.toNat_inj.mp h)
        rw [compareEntry_ne hEq]
        constructor
        · omega
        · intro h
          exact absurd (List.cons.inj h).1.symm hEq

/-- A name is behind the entries that come before it in the alphabet. -/
theorem compareEntry_pos (hName : Word name) : 0 < compareEntry name entry ↔ entry < name := by
  induction name generalizing entry with
  | nil =>
    cases entry with
    | nil => decide
    | cons d ds =>
      have hCompare : compareEntry [] (d :: ds) = 0 - (d.toNat : Int) := rfl
      rw [hCompare]
      constructor
      · omega
      · exact fun h => absurd h (List.not_lt_nil _)
  | cons c cs ih =>
    have hZero := hName c List.mem_cons_self
    cases entry with
    | nil =>
      have hCompare : compareEntry (c :: cs) [] = c.toNat := by
        simp [compareEntry, strncmp, hZero]
      rw [hCompare]
      exact ⟨fun _ => List.nil_lt_cons _ _, fun _ => by omega⟩
    | cons d ds =>
      rw [List.cons_lt_cons_iff]
      by_cases hEq : c = d
      · subst hEq
        rw [compareEntry_cons, ih fun x hx => hName x (List.mem_cons_of_mem _ hx)]
        simp
      · rw [compareEntry_ne hEq, Char.lt_def]
        have hVal : d.val < c.val ↔ d.toNat < c.toNat := UInt32.lt_iff_toNat_lt
        rw [hVal]
        constructor
        · omega
        · rintro (h | ⟨h, -⟩)
          · omega
          · exact absurd h.symm hEq

end Compare

/-- The names of the built-in functions are in alphabetical order. -/
theorem functions_sorted : (functions.map fun f => f.name.toList).Pairwise (· < ·) := by decide

theorem functions_words : ∀ f ∈ functions, Word f.name.toList := by decide

theorem entry_functions {i : Nat} (hi : i < functions.length) :
    (functions.map fun f => f.name.toList).getD i [] = functions[i].name.toList := by
  simp [hi]

/-- The search finds the built-in function of a name, if there is one. -/
theorem findBuiltin_eq_some {name : List Char} (hName : Word name) {f : Builtin} :
    findBuiltin name = some f ↔ f ∈ functions ∧ f.name.toList = name := by
  have hSorted : Bisection.Sorted
      (fun i => compareEntry name ((functions.map fun f => f.name.toList).getD i []))
      functions.length := by
    intro i j hij hj hNonneg
    simp only [entry_functions hj] at hNonneg
    simp only [entry_functions (hij.trans hj), compareEntry_pos hName]
    have hLess : functions[i].name.toList < functions[j].name.toList := by
      have h := List.pairwise_iff_getElem.mp functions_sorted i j (by simpa using hij.trans hj)
        (by simpa using hj) hij
      simpa using h
    rcases hNonneg.lt_or_eq with hPos | hZero
    · exact List.lt_trans hLess ((compareEntry_pos hName).mp hPos)
    · rw [← (compareEntry_eq_zero hName (functions_words _ (List.getElem_mem hj))).mp hZero.symm]
      exact hLess
  rw [findBuiltin, Option.bind_eq_some_iff]
  constructor
  · rintro ⟨i, hFound, hEntry⟩
    obtain ⟨hi, hZero⟩ := (Bisection.bisect_eq_some hSorted).mp hFound
    rw [entry_functions hi, compareEntry_eq_zero hName
      (functions_words _ (List.getElem_mem hi))] at hZero
    obtain ⟨hi', rfl⟩ := List.getElem?_eq_some_iff.mp hEntry
    exact ⟨List.getElem_mem hi, hZero⟩
  · rintro ⟨hMem, hEq⟩
    obtain ⟨i, hi, rfl⟩ := List.mem_iff_getElem.mp hMem
    refine ⟨i, (Bisection.bisect_eq_some hSorted).mpr ⟨hi, ?_⟩, List.getElem?_eq_getElem hi⟩
    rw [entry_functions hi, compareEntry_eq_zero hName (functions_words _ (List.getElem_mem hi))]
    exact hEq

/-! ## Names -/

namespace Lexicon

variable {L : Lexicon} {name : List Char} {var : String}

theorem strncmp_eq_zero {entry : List Char} (hName : Word name) :
    strncmp name entry = 0 ∧ entry[name.length]? = none ↔ entry = name := by
  induction name generalizing entry with
  | nil => simp [strncmp]
  | cons c cs ih =>
    cases entry with
    | nil => simp [strncmp, hName c List.mem_cons_self]
    | cons d ds =>
      have hRest := @ih ds fun x hx => hName x (List.mem_cons_of_mem _ hx)
      by_cases hEq : c = d
      · subst hEq
        simp only [strncmp, if_true, List.length_cons, List.getElem?_cons_succ, hRest,
          List.cons.injEq, true_and]
      · have hToNat : c.toNat ≠ d.toNat := fun h => hEq (Char.toNat_inj.mp h)
        simp only [strncmp, if_neg hEq]
        constructor
        · omega
        · exact fun h => absurd (List.cons.inj h).1.symm hEq

/-- An operand is found by its name. -/
theorem findLookup_eq (hName : Word name) :
    L.findLookup name = L.lookup.find? fun x => x.toList = name := by
  unfold findLookup
  congr 1
  funext x
  exact decide_eq_decide.mpr (strncmp_eq_zero hName)

theorem findLookup_mem (hName : Word var.toList) (h : var ∈ L.lookup) :
    L.findLookup var.toList = some var := by
  rw [findLookup_eq hName]
  obtain ⟨x, hFound⟩ : ∃ x, (L.lookup.find? fun x => x.toList = var.toList) = some x := by
    rw [← Option.isSome_iff_exists, List.find?_isSome]
    exact ⟨var, h, by simp⟩
  have hEq : x.toList = var.toList := by simpa using List.find?_some hFound
  rw [hFound, String.toList_inj.mp hEq]

theorem findLookup_none (hName : Word var.toList) (h : var ∉ L.lookup) :
    L.findLookup var.toList = none := by
  rw [findLookup_eq hName, List.find?_eq_none]
  intro x hx hEq
  exact h (String.toList_inj.mp (of_decide_eq_true hEq) ▸ hx)

end Lexicon

/-! ## What is left of a text -/

theorem digits_length (base : Nat) (text : List Char) :
    (digits base text).1.length + (digits base text).2.length = text.length := by
  induction text with
  | nil => rfl
  | cons c cs ih =>
    rw [digits]
    cases digitValue base c with
    | none => simp
    | some d =>
      simp only [List.length_cons]
      omega

theorem significand_length {base : Nat} {text rest : List Char} {whole part : List Nat}
    (h : significand base text = some (whole, part, rest)) : rest.length < text.length := by
  have hWhole := digits_length base text
  rw [significand] at h
  simp only at h
  split at h
  next rest' hRest =>
    have hPart := digits_length base rest'
    rw [hRest, List.length_cons] at hWhole
    split at h
    · cases h
    · cases h
      omega
  next =>
    split at h
    · cases h
    next hSome =>
      cases h
      have hPos := List.length_pos_of_ne_nil hSome
      omega

theorem exponentSign_length (text : List Char) : (exponentSign text).2.length ≤ text.length := by
  unfold exponentSign
  split <;> simp

theorem exponent_length (lower upper : Char) (text : List Char) :
    (exponent lower upper text).2.length ≤ text.length := by
  unfold exponent
  split
  next c cs =>
    split
    · have hSign := exponentSign_length cs
      have hDigits := digits_length 10 (exponentSign cs).2
      simp only
      split
      · exact Nat.le_refl _
      · simp only [List.length_cons]
        omega
    · exact Nat.le_refl _
  next => exact Nat.le_refl _

theorem decimal_length (text : List Char) : (decimal text).2.length ≤ text.length := by
  unfold decimal
  split
  next whole part rest hSome =>
    have hRest := significand_length hSome
    have hExponent := exponent_length 'e' 'E' rest
    simp only
    omega
  next => exact Nat.le_refl _

theorem strtod_length (text : List Char) : (strtod text).2.length ≤ text.length := by
  unfold strtod
  split
  next x cs =>
    split
    · split
      next whole part rest hSome =>
        have hRest := significand_length hSome
        have hExponent := exponent_length 'p' 'P' rest
        simp only [List.length_cons]
        omega
      next => exact decimal_length _
    · exact decimal_length _
  next => exact decimal_length _

/-- One for a token behind which a phrase may begin. -/
def Token.weight : Token → Nat
  | .tokSep | .tokOpen | .tokInfix _ | .teFunction _ _ | .teCustom _ => 1
  | _ => 0

theorem Token.weight_le (t : Token) : t.weight ≤ 1 := by cases t <;> simp [Token.weight]

theorem symbolToken_length {c : Char} {cs : List Char} {r : Token × List Char}
    (h : symbolToken c cs = some r) : r.2.length ≤ cs.length := by
  unfold symbolToken at h
  split at h
  case h_3 =>
    -- a second star belongs to the operator
    split at h <;> cases h <;> simp
  all_goals
    cases h
    try exact Nat.le_refl _

/-- A token consumes at least its weight. -/
theorem Lexicon.nextToken_length (L : Lexicon) (text : List Char) :
    (L.nextToken text).1.weight + (L.nextToken text).2.length ≤ text.length := by
  induction text with
  | nil => exact Nat.le_refl _
  | cons c cs ih =>
    rw [nextToken]
    split
    · have hNumber := strtod_length (c :: cs)
      simp only [Token.weight]
      omega
    next =>
      split
      next hLetter =>
        have hName : isNameChar c = true := by
          simp [isNameChar, hLetter]
        have hWeight := (L.nameToken ((c :: cs).takeWhile isNameChar)).weight_le
        have hRest : ((c :: cs).dropWhile isNameChar).length ≤ cs.length := by
          rw [List.dropWhile_cons, if_pos hName]
          exact (List.dropWhile_suffix _).length_le
        simp only [List.length_cons]
        omega
      next =>
        split
        next r hSymbol =>
          have hWeight := r.1.weight_le
          have hRest := symbolToken_length hSymbol
          simp only [List.length_cons]
          omega
        next =>
          simp only [List.length_cons]
          omega

end IronArray
