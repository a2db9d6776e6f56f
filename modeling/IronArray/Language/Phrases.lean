import Mathlib.Data.Prod.Basic

/-!
# Phrases of a stream of tokens

A recursive descent parser looks at one token and can move on to the next one. A level of operators
that group to the left is a loop: a phrase of the next tighter level, then an operator and one more
such phrase as long as there are operators. `Chain` is the grammar of such a level. The loop accepts
phrases of the grammar only (`level_sound`), and every phrase behind which neither its own operators
nor tighter ones follow (`level_complete`).
-/

namespace Phrases

variable {σ κ τ ε : Type}

/-- A parser: what it builds, and where it leaves the stream. -/
abbrev Parse (σ τ ε : Type) := σ → Except ε (τ × σ)

/-- A stream shows a token and can move on. -/
structure TokenStream (σ κ : Type) where
  tok : σ → κ
  next : σ → σ

/-- The tokens between two places of a stream. -/
inductive Spans (S : TokenStream σ κ) : σ → List κ → σ → Prop
  | nil (s : σ) : Spans S s [] s
  | cons {s s' : σ} {ks : List κ} : Spans S (S.next s) ks s' → Spans S s (S.tok s :: ks) s'

/-- The loop of a level of operators. Operators build trees. -/
def chain (S : TokenStream σ κ) (op : κ → Option (τ → τ → τ)) (sub : Parse σ τ ε) (spent : ε) :
    Nat → τ → Parse σ τ ε
  | 0, _, _ => .error spent
  | rounds + 1, ret, s =>
    match op (S.tok s) with
    | none => .ok (ret, s)
    | some f => do
      let (t, s) ← sub (S.next s)
      chain S op sub spent rounds (f ret t) s

/-- A level of operators. -/
def level (S : TokenStream σ κ) (op : κ → Option (τ → τ → τ)) (sub : Parse σ τ ε) (spent : ε)
    (rounds : Nat) : Parse σ τ ε := fun s => do
  let (t, s) ← sub s
  chain S op sub spent rounds t s

/-- Phrases of a level with operators that group to the left. -/
inductive Chain (op : κ → Option (τ → τ → τ)) (Sub : List κ → τ → Prop) : List κ → τ → Prop
  | one {ks : List κ} {t : τ} : Sub ks t → Chain op Sub ks t
  | more {ks ls : List κ} {k : κ} {t u : τ} {f : τ → τ → τ} :
      Chain op Sub ks t → op k = some f → Sub ls u → Chain op Sub (ks ++ k :: ls) (f t u)

theorem Chain.mono {op : κ → Option (τ → τ → τ)} {Sub Sub' : List κ → τ → Prop}
    (hSub : ∀ ks t, Sub ks t → Sub' ks t) {ks : List κ} {t : τ} (h : Chain op Sub ks t) :
    Chain op Sub' ks t := by
  induction h with
  | one h => exact .one (hSub _ _ h)
  | more _ hOp hLast ih => exact .more ih hOp (hSub _ _ hLast)

theorem ok_bind {α β : Type} {x : Except ε α} {f : α → Except ε β} {b : β} :
    x >>= f = .ok b ↔ ∃ a, x = .ok a ∧ f a = .ok b := by
  cases x with
  | error e => simp [bind, Except.bind]
  | ok a => simp [bind, Except.bind]

/-! ## Places -/

namespace Spans

variable {S : TokenStream σ κ} {s s' s'' : σ} {ks ls : List κ} {k : κ}

theorem append (h : Spans S s ks s') (h' : Spans S s' ls s'') : Spans S s (ks ++ ls) s'' := by
  induction h with
  | nil => exact h'
  | cons _ ih => exact .cons (ih h')

theorem split (h : Spans S s (ks ++ ls) s'') : ∃ s', Spans S s ks s' ∧ Spans S s' ls s'' := by
  induction ks generalizing s with
  | nil => exact ⟨s, .nil s, h⟩
  | cons k ks ih =>
    cases h with
    | cons hRest =>
      obtain ⟨s', hFirst, hLast⟩ := ih hRest
      exact ⟨s', .cons hFirst, hLast⟩

theorem head (h : Spans S s (k :: ks) s') : S.tok s = k ∧ Spans S (S.next s) ks s' := by
  cases h with
  | cons hRest => exact ⟨rfl, hRest⟩

theorem nil_eq (h : Spans S s [] s') : s' = s := by
  cases h
  rfl

theorem single (s : σ) : Spans S s [S.tok s] (S.next s) := .cons (.nil _)

theorem of_tok (hTok : S.tok s = k) (h : Spans S (S.next s) ks s') : Spans S s (k :: ks) s' :=
  hTok ▸ .cons h

theorem snoc (h : Spans S s ks s') (hTok : S.tok s' = k) : Spans S s (ks ++ [k]) (S.next s') :=
  h.append (.of_tok hTok (.nil _))

/-- What never grows from one token to the next does not grow. -/
theorem le {size : σ → Nat} (hNext : ∀ s, size (S.next s) ≤ size s) (h : Spans S s ks s') :
    size s' ≤ size s := by
  induction h with
  | nil => exact Nat.le_refl _
  | cons _ ih => exact Nat.le_trans ih (hNext _)

end Spans

/-! ## The loop -/

section Loop

variable {S : TokenStream σ κ} {op : κ → Option (τ → τ → τ)} {sub : Parse σ τ ε} {spent : ε}
  {Sub : List κ → τ → Prop} {s s₀ s' : σ} {t ret : τ} {rounds : Nat} {ks ks₀ : List κ}

theorem chain_stop (hOp : op (S.tok s) = none) :
    chain S op sub spent (rounds + 1) ret s = .ok (ret, s) := by
  simp only [chain, hOp]

theorem chain_step {f : τ → τ → τ} {u : τ} (hOp : op (S.tok s) = some f)
    (hSub : sub (S.next s) = .ok (u, s')) :
    chain S op sub spent (rounds + 1) ret s = chain S op sub spent rounds (f ret u) s' := by
  simp only [chain, hOp, hSub]
  rfl

theorem level_error {e : ε} (hSub : sub s = .error e) :
    level S op sub spent rounds s = .error e := by
  simp only [level, hSub]
  rfl

/-! ### The loop accepts phrases only -/

variable {Good : σ → Prop}

/-- Where a stream has gone wrong there is no operator, and the loop leaves it as it is. -/
theorem chain_good (hOp : ∀ s, op (S.tok s) ≠ none → Good s)
    (h : chain S op sub spent rounds ret s = .ok (t, s')) (hGood : Good s') : Good s := by
  by_contra hBad
  cases rounds with
  | zero => cases h
  | succ rounds =>
    have hNone : op (S.tok s) = none := by
      by_contra hSome
      exact hBad (hOp s hSome)
    rw [chain_stop hNone] at h
    cases h
    exact hBad hGood

theorem chain_sound (hOp : ∀ s, op (S.tok s) ≠ none → Good s)
    (hSub : ∀ s t s', sub s = .ok (t, s') → Good s' → ∃ ks, Spans S s ks s' ∧ Sub ks t)
    (hFirst : Spans S s₀ ks₀ s) (hRet : Chain op Sub ks₀ ret)
    (h : chain S op sub spent rounds ret s = .ok (t, s')) (hGood : Good s') :
    ∃ ks, Spans S s₀ ks s' ∧ Chain op Sub ks t := by
  induction rounds generalizing s ret ks₀ with
  | zero => cases h
  | succ rounds ih =>
    cases hTok : op (S.tok s) with
    | none =>
      rw [chain_stop hTok] at h
      cases h
      exact ⟨ks₀, hFirst, hRet⟩
    | some f =>
      simp only [chain, hTok] at h
      obtain ⟨⟨u, s₁⟩, hNext, h⟩ := ok_bind.mp h
      obtain ⟨ls, hSpans, hPhrase⟩ := hSub _ _ _ hNext (chain_good hOp h hGood)
      exact ih (hFirst.append (.cons hSpans)) (.more hRet hTok hPhrase) h

/-- A level accepts phrases of its grammar only. -/
theorem level_sound (hOp : ∀ s, op (S.tok s) ≠ none → Good s)
    (hSub : ∀ s t s', sub s = .ok (t, s') → Good s' → ∃ ks, Spans S s ks s' ∧ Sub ks t)
    (h : level S op sub spent rounds s = .ok (t, s')) (hGood : Good s') :
    ∃ ks, Spans S s ks s' ∧ Chain op Sub ks t := by
  obtain ⟨⟨u, s₁⟩, hFirst, h⟩ := ok_bind.mp h
  obtain ⟨ks, hSpans, hPhrase⟩ := hSub _ _ _ hFirst (chain_good hOp h hGood)
  exact chain_sound hOp hSub hSpans (.one hPhrase) h hGood

/-! ### The loop accepts every phrase -/

variable {size : σ → Nat} {bound : Nat} {After : σ → Prop}

/-- A phrase leads into the loop, with rounds enough for what follows. -/
theorem level_chain (hNext : ∀ s, size (S.next s) ≤ size s)
    (hShrinks : ∀ s, op (S.tok s) ≠ none → size (S.next s) < size s)
    (hAfter : ∀ s, op (S.tok s) ≠ none → After s)
    (hSub : ∀ ks t s s', Sub ks t → Spans S s ks s' → size s < bound → After s' →
      sub s = .ok (t, s'))
    (hRounds : bound ≤ rounds) (h : Chain op Sub ks t) (hSpans : Spans S s ks s')
    (hBound : size s < bound) (hEnd : After s') :
    ∃ n, size s' < n ∧ level S op sub spent rounds s = chain S op sub spent n t s' := by
  induction h generalizing s' with
  | one hPhrase =>
    have hSize := hSpans.le hNext
    refine ⟨rounds, by omega, ?_⟩
    simp only [level, hSub _ _ _ _ hPhrase hSpans hBound hEnd]
    rfl
  | @more ks ls k t u f hFirst hOp hPhrase ih =>
    obtain ⟨s₁, hLeft, hRest⟩ := hSpans.split
    obtain ⟨hTok, hRight⟩ := hRest.head
    have hSome : op (S.tok s₁) ≠ none := by
      rw [hTok, hOp]
      exact Option.some_ne_none f
    obtain ⟨n, hn, hLevel⟩ := ih hLeft (hAfter s₁ hSome)
    have hLeftSize := hLeft.le hNext
    have hOpSize := hShrinks s₁ hSome
    have hRightSize := hRight.le hNext
    obtain ⟨m, rfl⟩ : ∃ m, n = m + 1 := ⟨n - 1, by omega⟩
    refine ⟨m, by omega, ?_⟩
    rw [hLevel, chain_step (by rw [hTok, hOp]) (hSub _ _ _ _ hPhrase hRight (by omega) hEnd)]

/-- A level accepts every phrase of its grammar behind which no operator follows. -/
theorem level_complete (hNext : ∀ s, size (S.next s) ≤ size s)
    (hShrinks : ∀ s, op (S.tok s) ≠ none → size (S.next s) < size s)
    (hAfter : ∀ s, op (S.tok s) ≠ none → After s)
    (hSub : ∀ ks t s s', Sub ks t → Spans S s ks s' → size s < bound → After s' →
      sub s = .ok (t, s'))
    (hRounds : bound ≤ rounds) (h : Chain op Sub ks t) (hSpans : Spans S s ks s')
    (hBound : size s < bound) (hEnd : After s') (hStop : op (S.tok s') = none) :
    level S op sub spent rounds s = .ok (t, s') := by
  obtain ⟨n, hn, hLevel⟩ := level_chain hNext hShrinks hAfter hSub hRounds h hSpans hBound hEnd
  obtain ⟨m, rfl⟩ : ∃ m, n = m + 1 := ⟨n - 1, by omega⟩
  rw [hLevel, chain_stop hStop]

end Loop

/-! ## What a parser does not run into -/

/-- A parser has not run into a certain error, and where it has left the stream something holds. -/
def Avoids (error : ε) (P : σ → Prop) (x : Except ε (τ × σ)) : Prop :=
  (∃ e, x = .error e ∧ e ≠ error) ∨ ∃ t s, x = .ok (t, s) ∧ P s

namespace Avoids

variable {υ : Type} {error : ε} {P Q : σ → Prop} {x : Except ε (τ × σ)}

theorem ok {t : τ} {s : σ} (h : P s) : Avoids error P (.ok (t, s)) := .inr ⟨t, s, rfl, h⟩

theorem mono (h : Avoids error P x) (hPQ : ∀ s, P s → Q s) : Avoids error Q x := by
  rcases h with hError | ⟨t, s, hOk, hP⟩
  · exact .inl hError
  · exact .inr ⟨t, s, hOk, hPQ s hP⟩

theorem bind {f : τ × σ → Except ε (υ × σ)} (h : Avoids error P x)
    (hf : ∀ t s, P s → Avoids error Q (f (t, s))) : Avoids error Q (x >>= f) := by
  rcases h with ⟨e, rfl, hOther⟩ | ⟨t, s, rfl, hP⟩
  · exact .inl ⟨e, rfl, hOther⟩
  · exact hf t s hP

theorem ne_error (h : Avoids error P x) : x ≠ .error error := by
  rcases h with ⟨e, rfl, hOther⟩ | ⟨t, s, rfl, -⟩
  · exact fun hEq => hOther (Except.error.inj hEq)
  · exact fun hEq => nomatch hEq

end Avoids

section Keeps

variable {S : TokenStream σ κ} {op : κ → Option (τ → τ → τ)} {sub : Parse σ τ ε} {spent error : ε}
  {P : σ → Prop} {s : σ}

/-- A level avoids an error that its phrases avoid. -/
theorem level_avoids (hSpent : spent ≠ error) (hNext : ∀ s, P (S.next s))
    (hSub : ∀ s, P s → Avoids error P (sub s)) (rounds : Nat) (hs : P s) :
    Avoids error P (level S op sub spent rounds s) := by
  refine (hSub s hs).bind fun t s' hs' => ?_
  show Avoids error P (chain S op sub spent rounds t s')
  induction rounds generalizing t s' with
  | zero => exact .inl ⟨spent, rfl, hSpent⟩
  | succ rounds ih =>
    cases hTok : op (S.tok s') with
    | none =>
      rw [chain_stop hTok]
      exact .ok hs'
    | some f =>
      simp only [chain, hTok]
      exact (hSub _ (hNext s')).bind fun u s'' hs'' => ih (f t u) s'' hs''

end Keeps

section Ends

variable {S : TokenStream σ κ} {op : κ → Option (τ → τ → τ)} {sub : Parse σ τ ε} {spent : ε}
  {s : σ} {rounds bound : Nat} {size : σ → Nat}

/-- A parser has not run out of rounds, and it has left the stream at a place of at most some
size. -/
abbrev Ended (size : σ → Nat) (spent : ε) (n : Nat) (x : Except ε (τ × σ)) : Prop :=
  Avoids spent (fun s => size s ≤ n) x

/-- From places below a bound a parser ends, and it does not go back. -/
def Ends (size : σ → Nat) (spent : ε) (bound : Nat) (p : Parse σ τ ε) : Prop :=
  ∀ s, size s < bound → Ended size spent (size s) (p s)

theorem Ended.grow {m n : Nat} {x : Except ε (τ × σ)} (h : Ended size spent m x) (hLe : m ≤ n) :
    Ended size spent n x :=
  h.mono fun _ hSize => Nat.le_trans hSize hLe

theorem chain_ended (hShrinks : ∀ s, op (S.tok s) ≠ none → size (S.next s) < size s)
    (hSub : Ends size spent bound sub) (ret : τ) (hBound : size s < bound)
    (hRounds : size s < rounds) :
    Ended size spent (size s) (chain S op sub spent rounds ret s) := by
  induction rounds generalizing ret s with
  | zero => omega
  | succ rounds ih =>
    cases hTok : op (S.tok s) with
    | none =>
      rw [chain_stop hTok]
      exact .ok (Nat.le_refl _)
    | some f =>
      have hLess := hShrinks s (by rw [hTok]; exact Option.some_ne_none f)
      simp only [chain, hTok]
      refine Ended.grow ((hSub (S.next s) (by omega)).bind fun t s' hSize => ?_)
        (Nat.le_of_lt hLess)
      have hLast : size s' < bound ∧ size s' < rounds := by omega
      exact (ih (f ret t) hLast.1 hLast.2).grow hSize

theorem level_ends (hShrinks : ∀ s, op (S.tok s) ≠ none → size (S.next s) < size s)
    (hSub : Ends size spent bound sub) (hRounds : bound ≤ rounds) :
    Ends size spent bound (level S op sub spent rounds) := by
  intro s hBound
  refine (hSub s hBound).bind fun t s' hSize => ?_
  exact (chain_ended hShrinks hSub t (by omega) (by omega)).grow hSize

end Ends

end Phrases
