import IronArray.Minjugg.Formula

/-!
# Calls of registered functions

A node of a registered function has room for seven arguments. The parser returns on every text
exactly if no name stands for a function of more: `jugTeCompile_returns_iff`.
-/

namespace IronArray

open Phrases Grammar

/-! ## Functions of at most seven arguments -/

/-- Names stand for registered functions of at most seven arguments. -/
def Lexicon.Fits (L : Lexicon) : Prop :=
  ∀ name udf, IsName name → L.nameToken name = .teCustom udf → udf.numArgs < customSlots

/-- A token that stands for no function of more than seven arguments. -/
def TeState.Fits (s : TeState) : Prop := ∀ udf, s.type = .teCustom udf →
  udf.numArgs < Lexicon.customSlots

namespace Lexicon

variable {L : Lexicon} {s : TeState} {rounds : Nat}

theorem fits_fail (s : TeState) : s.fail.Fits := fun _ h => nomatch h

theorem symbolToken_custom {c : Char} {cs : List Char} {r : Token × List Char}
    (h : symbolToken c cs = some r) (udf : Udf) : r.1 ≠ .teCustom udf := by
  unfold symbolToken at h
  split at h
  case h_3 => split at h <;> cases h <;> exact fun hEq => nomatch hEq
  all_goals first | cases h; exact fun hEq => nomatch hEq | cases h

/-- A token of a registered function is that of a name. -/
theorem nextToken_custom {text : List Char} {udf : Udf}
    (h : (L.nextToken text).1 = .teCustom udf) :
    ∃ name, IsName name ∧ L.nameToken name = .teCustom udf := by
  induction text with
  | nil => cases h
  | cons c cs ih =>
    rw [nextToken] at h
    split at h
    · cases h
    next =>
      split at h
      next hLetter =>
        refine ⟨_, ?_, h⟩
        have hChar : isNameChar c = true := by simp [isNameChar, hLetter]
        constructor
        · rw [List.takeWhile_cons, if_pos hChar]
          exact hLetter
        · exact fun d hd => List.all_eq_true.mp List.all_takeWhile d hd
      next =>
        split at h
        next r hSymbol => exact absurd h (symbolToken_custom hSymbol udf)
        next => exact ih h

theorem fits_next (hL : L.Fits) (s : TeState) : (L.stream.next s).Fits := by
  intro udf h
  obtain ⟨name, hName, hToken⟩ := nextToken_custom h
  exact hL name udf hName hToken

section Avoids

variable {power expr : TeParse TeExpr}

theorem expr_avoids (hL : L.Fits) (hPower : ∀ s, s.Fits → Avoids .overflow TeState.Fits (power s))
    (s : TeState) (hs : s.Fits) : Avoids .overflow TeState.Fits (L.expr rounds power s) :=
  level_avoids (by decide) (fits_next hL)
    (fun _ => level_avoids (by decide) (fits_next hL)
      (fun _ => level_avoids (by decide) (fits_next hL) hPower rounds) rounds) rounds hs

theorem list_avoids (hL : L.Fits) (hPower : ∀ s, s.Fits → Avoids .overflow TeState.Fits (power s))
    (s : TeState) (hs : s.Fits) : Avoids .overflow TeState.Fits (L.list rounds power s) :=
  level_avoids (by decide) (fits_next hL) (expr_avoids hL hPower) rounds hs

/-- There is room for all arguments. -/
theorem arguments_avoids (hL : L.Fits)
    (hExpr : ∀ s, s.Fits → Avoids .overflow TeState.Fits (expr s)) {slots first left : Nat}
    {ps : List TeExpr} (hRoom : first + ps.length + left ≤ slots) (hs : s.Fits) :
    Avoids .overflow TeState.Fits (L.arguments expr slots first left ps s) := by
  induction left generalizing ps s with
  | zero => exact .ok hs
  | succ left ih =>
    refine (hExpr _ (fits_next hL s)).bind fun t s' hs' => ?_
    dsimp only
    rw [if_pos (show first + ps.length < slots by omega)]
    split
    · apply ih _ hs'
      rw [List.length_append, List.length_singleton]
      omega
    · exact .ok hs'

theorem call_avoids (hL : L.Fits)
    (hExpr : ∀ s, s.Fits → Avoids .overflow TeState.Fits (expr s)) {slots first arity : Nat}
    (hRoom : first + arity ≤ slots) (hs : s.Fits) :
    Avoids .overflow TeState.Fits (L.call expr slots first arity s) := by
  unfold call
  split
  · exact .ok (fits_fail s)
  · refine (arguments_avoids hL hExpr (by simpa using hRoom) hs).bind fun ps s' hs' => ?_
    dsimp only
    split
    · exact .ok (fits_fail s')
    · exact .ok (fits_next hL s')

theorem base_avoids (hL : L.Fits)
    (hPower : ∀ s, s.Fits → Avoids .overflow TeState.Fits (power s)) (hs : s.Fits) :
    Avoids .overflow TeState.Fits (L.base rounds power s) := by
  have hNext := fits_next hL s
  unfold base
  split
  next udf hType =>
    have hFew := hs udf hType
    refine (call_avoids hL (expr_avoids hL hPower) (by omega) hNext).bind fun ps s' hs' => .ok hs'
  · exact .ok hNext
  · exact .ok hNext
  · exact (hPower _ hNext).bind fun t s' hs' => .ok hs'
  · exact (call_avoids hL (expr_avoids hL hPower) (by omega) hNext).bind fun ps s' hs' => .ok hs'
  · refine (list_avoids hL hPower _ hNext).bind fun t s' hs' => ?_
    dsimp only
    split
    · exact .ok (fits_fail s')
    · exact .ok (fits_next hL s')
  · exact .ok (fits_fail s)

theorem signs_avoids (hL : L.Fits) (sign : Int) (hs : s.Fits) :
    Avoids .overflow TeState.Fits (L.signs rounds sign s) := by
  induction rounds generalizing sign s with
  | zero => exact .inl ⟨_, rfl, by decide⟩
  | succ rounds ih =>
    rw [signs]
    split
    · exact ih sign (fits_next hL s)
    · exact ih (-sign) (fits_next hL s)
    · exact .ok hs

theorem power_avoids (hL : L.Fits) (rounds : Nat) (s : TeState) (hs : s.Fits) :
    Avoids .overflow TeState.Fits (L.power rounds s) := by
  induction rounds generalizing s with
  | zero => exact .inl ⟨_, rfl, by decide⟩
  | succ rounds ih =>
    refine (signs_avoids hL 1 hs).bind fun sign s' hs' => ?_
    exact (base_avoids hL ih hs').bind fun t s'' hs'' => .ok hs''

end Avoids

/-! ## A function of more -/

/-- Arguments, with a separator behind each. -/
def ones : Nat → List Char
  | 0 => []
  | n + 1 => '1' :: ',' :: ones n

theorem length_ones (n : Nat) : (ones n).length = 2 * n := by
  induction n with
  | zero => rfl
  | succ n ih =>
    rw [ones, List.length_cons, List.length_cons, ih]
    omega

/-- One argument. -/
theorem expr_ones {bound n : Nat} (t : Token) (hRounds : bound ≤ rounds)
    (hBound : 2 * n + 1 < bound) :
    L.expr rounds (L.power bound) (L.stream.next ⟨ones (n + 1), t⟩) =
      .ok (.teConstant (L.toDouble (strtod (ones (n + 1))).1), ⟨ones n, .tokSep⟩) := by
  have hPhrase : Expr (Power 1) [.tokNumber (L.toDouble (strtod (ones (n + 1))).1)]
      (.teConstant (L.toDouble (strtod (ones (n + 1))).1)) :=
    .one (.one (.one (Signed.base (Base.constant _) :
      Signed (Base (Power 0)) 1 _ (signed 1 (.teConstant _)))))
  have hNext : L.stream.next ⟨ones (n + 1), t⟩ =
      ⟨',' :: ones n, .tokNumber (L.toDouble (strtod (ones (n + 1))).1)⟩ := rfl
  rw [hNext]
  refine expr_complete (power_complete 1 bound) hRounds _ _ _ _ hPhrase (.single _) ?_
    ⟨rfl, rfl, rfl⟩
  show (',' :: ones n).length + 0 < bound
  rw [List.length_cons, length_ones]
  omega

/-- Eight arguments do not fit. -/
theorem arguments_ones {bound n left : Nat} {ps : List TeExpr} (t : Token) (hLeft : n < left)
    (hRoom : ps.length + n + 1 = customSlots) (hRounds : bound ≤ rounds)
    (hBound : 2 * n + 1 < bound) :
    L.arguments (L.expr rounds (L.power bound)) customSlots 1 left ps ⟨ones (n + 1), t⟩ =
      .error .overflow := by
  obtain ⟨left, rfl⟩ : ∃ m, left = m + 1 := ⟨left - 1, by omega⟩
  induction n generalizing ps t left with
  | zero =>
    simp only [arguments, expr_ones t hRounds hBound, bind, Except.bind]
    rw [if_neg (by omega)]
  | succ n ih =>
    obtain ⟨left, rfl⟩ : ∃ m, left = m + 1 := ⟨left - 1, by omega⟩
    rw [arguments, expr_ones t hRounds hBound]
    simp only [bind, Except.bind, if_true]
    rw [if_pos (by omega)]
    refine ih .tokSep ?_ (by omega) left (by omega)
    rw [List.length_append, List.length_singleton]
    omega

/-- Eight arguments are too many for a node. -/
theorem jugTeCompile_overflow {name : List Char} {udf : Udf} (hName : IsName name)
    (hToken : L.nameToken name = .teCustom udf) (hMany : customSlots ≤ udf.numArgs) :
    L.jugTeCompile (name ++ '(' :: ones 8) = .error .overflow := by
  have hStart : L.start (name ++ '(' :: ones 8) = ⟨'(' :: ones 8, .teCustom udf⟩ := by
    have hFirst := nextToken_name (L := L) hName
      (stops_cons (by decide) : Stops ('(' :: ones 8))
    rw [hToken] at hFirst
    show (⟨(L.nextToken _).2, (L.nextToken _).1⟩ : TeState) = _
    rw [hFirst]
  have hLength : (name ++ '(' :: ones 8).length = name.length + 17 := by
    rw [List.length_append, List.length_cons, length_ones]
  have hPower : L.power (name.length + 17 + 2) ⟨'(' :: ones 8, .teCustom udf⟩ =
      .error .overflow := by
    have hSlots : customSlots = 8 := rfl
    have hArguments := arguments_ones (L := L) (n := 7) .tokOpen
      (show 7 < udf.numArgs by omega) (show ([] : List TeExpr).length + 7 + 1 = customSlots from rfl)
      (Nat.le_succ (name.length + 18)) (by omega)
    have hOpen : L.stream.next ⟨'(' :: ones 8, .teCustom udf⟩ = ⟨ones 8, .tokOpen⟩ := rfl
    have hCall : L.call (L.expr (name.length + 19) (L.power (name.length + 18))) customSlots 1
        udf.numArgs ⟨ones 8, .tokOpen⟩ = .error .overflow := by
      rw [call]
      simp only [ne_eq, not_true_eq_false, if_false]
      rw [hArguments]
      rfl
    have hBase : L.base (name.length + 19) (L.power (name.length + 18))
        ⟨'(' :: ones 8, .teCustom udf⟩ = .error .overflow := by
      simp only [base, hOpen, hCall]
      rfl
    rw [power]
    simp only [signs, bind, Except.bind, hBase]
  have hList : L.list (name.length + 17 + 2) (L.power (name.length + 17 + 2))
      ⟨'(' :: ones 8, .teCustom udf⟩ = .error .overflow :=
    level_error (level_error (level_error (level_error hPower)))
  simp only [jugTeCompile, hStart, hLength, hList]
  rfl

end Lexicon

/-- If a name stands for a function of more arguments, some text has too many of them. -/
theorem exists_overflow {L : Lexicon} (hL : ¬ L.Fits) :
    ∃ text, L.jugTeCompile text = .error .overflow := by
  unfold Lexicon.Fits at hL
  push Not at hL
  obtain ⟨name, udf, hName, hToken, hMany⟩ := hL
  exact ⟨_, Lexicon.jugTeCompile_overflow hName hToken hMany⟩

/-- The parser returns on every text exactly if names stand for functions of at most seven
arguments, and otherwise it writes behind the parameters of a node on some text. -/
theorem jugTeCompile_returns_iff (L : Lexicon) :
    ((∀ text, ∃ r, L.jugTeCompile text = .ok r) ↔ L.Fits) ∧
      (¬ L.Fits → ∃ text, L.jugTeCompile text = .error .overflow) := by
  refine ⟨⟨fun h => ?_, fun hL text => ?_⟩, exists_overflow⟩
  · by_contra hMany
    obtain ⟨text, hOverflow⟩ := exists_overflow hMany
    obtain ⟨r, hOk⟩ := h text
    cases hOverflow.symm.trans hOk
  · have hRounds := (L.list_start_ended text).ne_error
    have hOverflow : L.list (text.length + 2) (L.power (text.length + 2)) (L.start text) ≠
        .error .overflow :=
      (Lexicon.list_avoids hL (Lexicon.power_avoids hL _) _ (Lexicon.fits_next hL _)).ne_error
    rw [Lexicon.jugTeCompile]
    cases hList : L.list (text.length + 2) (L.power (text.length + 2)) (L.start text) with
    | error e =>
      cases e with
      | rounds => exact absurd hList hRounds
      | overflow => exact absurd hList hOverflow
    | ok r =>
      simp only [bind, Except.bind]
      split
      · exact ⟨_, rfl⟩
      · exact ⟨_, rfl⟩

end IronArray
