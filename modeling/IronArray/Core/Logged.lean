import Mathlib.Data.List.Forall2

/-!
# Computations with a log

A computation that emits events and may fail. The log outlives the failure: it holds what happened
up to there. A property of logs that holds of the empty log and of two logs one after the other
holds of a whole computation if it holds of its steps.
-/

/-- The events that a computation emitted, and how it ended. -/
structure Logged (ε Ev α : Type) where
  log : List Ev
  outcome : Except ε α

namespace Logged

variable {ε Ev α β : Type}

/-! ## Sequencing -/

instance : Monad (Logged ε Ev) where
  pure a := ⟨[], .ok a⟩
  bind x f :=
    match x.outcome with
    | .ok a => ⟨x.log ++ (f a).log, (f a).outcome⟩
    | .error e => ⟨x.log, .error e⟩

/-- A step that emits nothing. -/
instance : MonadLift (Except ε) (Logged ε Ev) where
  monadLift x := ⟨[], x⟩

/-- A step that emits one event. -/
def emit (e : Ev) : Logged ε Ev Unit := ⟨[e], .ok ()⟩

@[simp] theorem log_pure (a : α) : (pure a : Logged ε Ev α).log = [] := rfl

@[simp] theorem outcome_pure (a : α) : (pure a : Logged ε Ev α).outcome = .ok a := rfl

@[simp] theorem log_lift (x : Except ε α) : (liftM x : Logged ε Ev α).log = [] := rfl

@[simp] theorem outcome_lift (x : Except ε α) : (liftM x : Logged ε Ev α).outcome = x := rfl

theorem bind_of_ok {x : Logged ε Ev α} {a : α} (h : x.outcome = .ok a) (f : α → Logged ε Ev β) :
    x >>= f = ⟨x.log ++ (f a).log, (f a).outcome⟩ := by
  show (match x.outcome with
    | .ok a => ⟨x.log ++ (f a).log, (f a).outcome⟩
    | .error e => ⟨x.log, .error e⟩ : Logged ε Ev β) = _
  rw [h]

theorem bind_of_error {x : Logged ε Ev α} {e : ε} (h : x.outcome = .error e)
    (f : α → Logged ε Ev β) : x >>= f = ⟨x.log, .error e⟩ := by
  show (match x.outcome with
    | .ok a => ⟨x.log ++ (f a).log, (f a).outcome⟩
    | .error e => ⟨x.log, .error e⟩ : Logged ε Ev β) = _
  rw [h]

/-- What follows matters only where the first part succeeds. -/
theorem bind_congr_of_ok {x : Logged ε Ev α} {f g : α → Logged ε Ev β}
    (h : ∀ a, x.outcome = .ok a → f a = g a) : x >>= f = x >>= g := by
  cases hx : x.outcome with
  | ok a => rw [bind_of_ok hx, bind_of_ok hx, h a hx]
  | error e => rw [bind_of_error hx, bind_of_error hx]

theorem ext {x y : Logged ε Ev α} (hLog : x.log = y.log) (hOutcome : x.outcome = y.outcome) :
    x = y := by
  cases x
  cases y
  cases hLog
  cases hOutcome
  rfl

theorem bind_pure_eq (x : Logged ε Ev α) : x >>= pure = x := by
  cases h : x.outcome with
  | ok a =>
    rw [bind_of_ok h]
    exact ext (List.append_nil _) h.symm
  | error e =>
    rw [bind_of_error h]
    exact ext rfl h.symm

theorem bind_bind {γ : Type} (x : Logged ε Ev α) (f : α → Logged ε Ev β) (g : β → Logged ε Ev γ) :
    x >>= f >>= g = x >>= fun a => f a >>= g := by
  cases h : x.outcome with
  | ok a =>
    rw [bind_of_ok h, bind_of_ok h]
    cases h' : (f a).outcome with
    | ok b =>
      rw [bind_of_ok h', bind_of_ok rfl]
      exact ext (List.append_assoc _ _ _) rfl
    | error e => rw [bind_of_error h', bind_of_error rfl]
  | error e => rw [bind_of_error h, bind_of_error h, bind_of_error rfl]

instance : LawfulMonad (Logged ε Ev) :=
  LawfulMonad.mk' _ bind_pure_eq (fun a f => bind_of_ok rfl f) bind_bind

/-! ## Events of a sequence -/

theorem mem_bind_left {x : Logged ε Ev α} {e : Ev} (he : e ∈ x.log) (f : α → Logged ε Ev β) :
    e ∈ (x >>= f).log := by
  cases h : x.outcome with
  | ok a =>
    rw [bind_of_ok h]
    exact List.mem_append_left _ he
  | error _ => rwa [bind_of_error h]

theorem mem_bind_right {x : Logged ε Ev α} {a : α} (h : x.outcome = .ok a)
    {f : α → Logged ε Ev β} {e : Ev} (he : e ∈ (f a).log) : e ∈ (x >>= f).log := by
  rw [bind_of_ok h]
  exact List.mem_append_right _ he

theorem bind_eq_ok {x : Logged ε Ev α} {f : α → Logged ε Ev β} {b : β} :
    (x >>= f).outcome = .ok b ↔ ∃ a, x.outcome = .ok a ∧ (f a).outcome = .ok b := by
  cases h : x.outcome with
  | ok a => simp [bind_of_ok h]
  | error e => simp [bind_of_error h]

theorem bind_eq_error {x : Logged ε Ev α} {f : α → Logged ε Ev β} {e : ε} :
    (x >>= f).outcome = .error e ↔
      x.outcome = .error e ∨ ∃ a, x.outcome = .ok a ∧ (f a).outcome = .error e := by
  cases h : x.outcome with
  | ok a => simp [bind_of_ok h]
  | error e => simp [bind_of_error h]

theorem mapM_eq_ok {xs : List α} {f : α → Logged ε Ev β} {ys : List β}
    (h : (xs.mapM f).outcome = .ok ys) : List.Forall₂ (fun a b => (f a).outcome = .ok b) xs ys := by
  induction xs generalizing ys with
  | nil =>
    cases h
    exact .nil
  | cons a xs ih =>
    rw [List.mapM_cons] at h
    obtain ⟨b, hb, h⟩ := bind_eq_ok.mp h
    obtain ⟨bs, hbs, h⟩ := bind_eq_ok.mp h
    cases h
    exact .cons hb (ih hbs)

theorem exists_of_mapM {xs : List α} {f : α → Logged ε Ev β} {ys : List β}
    (h : (xs.mapM f).outcome = .ok ys) {x : α} (hx : x ∈ xs) : ∃ b, (f x).outcome = .ok b := by
  have hAll := mapM_eq_ok h
  clear h
  induction hAll with
  | nil => cases hx
  | cons hHead _ ih =>
    rcases List.mem_cons.mp hx with rfl | hx
    · exact ⟨_, hHead⟩
    · exact ih hx

theorem mapM_ok {xs : List α} {f : α → Logged ε Ev β} {g : α → β}
    (h : ∀ a ∈ xs, (f a).outcome = .ok (g a)) : (xs.mapM f).outcome = .ok (xs.map g) := by
  induction xs with
  | nil => rfl
  | cons a xs ih =>
    obtain ⟨hHead, hTail⟩ := List.forall_mem_cons.mp h
    rw [List.mapM_cons]
    exact bind_eq_ok.mpr ⟨_, hHead, bind_eq_ok.mpr ⟨_, ih hTail, rfl⟩⟩

/-- A loop over entries and their positions, each entry with what is known of it. -/
theorem mapM_zipIdx_ok {γ : Type} {xs : List α} {cs : List γ} {R : α → γ → Prop} {Q : β → γ → Prop}
    {f : α × Nat → Logged ε Ev β} {n bound : Nat} (hBound : n + xs.length ≤ bound)
    (hf : ∀ a c i, R a c → i < bound → ∃ b, (f (a, i)).outcome = .ok b ∧ Q b c)
    (h : List.Forall₂ R xs cs) :
    ∃ ys, ((xs.zipIdx n).mapM f).outcome = .ok ys ∧ List.Forall₂ Q ys cs := by
  induction h generalizing n with
  | nil => exact ⟨[], rfl, .nil⟩
  | @cons a c xs cs hHead _ ih =>
    rw [List.length_cons] at hBound
    obtain ⟨b, hb, hQ⟩ := hf a c n hHead (by omega)
    obtain ⟨ys, hys, hRest⟩ := @ih (n + 1) (by omega)
    rw [List.zipIdx_cons, List.mapM_cons]
    exact ⟨b :: ys, bind_eq_ok.mpr ⟨b, hb, bind_eq_ok.mpr ⟨ys, hys, rfl⟩⟩, .cons hQ hRest⟩

/-- A loop in which one step fails, and no step in another way. -/
theorem mapM_of_error {xs : List α} {f : α → Logged ε Ev β} {e : ε}
    (hEach : ∀ a ∈ xs, (∃ b, (f a).outcome = .ok b) ∨ (f a).outcome = .error e)
    (hSome : ∃ a ∈ xs, (f a).outcome = .error e) : (xs.mapM f).outcome = .error e := by
  induction xs with
  | nil =>
    obtain ⟨_, ha, _⟩ := hSome
    cases ha
  | cons a xs ih =>
    obtain ⟨hHead, hTail⟩ := List.forall_mem_cons.mp hEach
    rw [List.mapM_cons]
    rcases hHead with ⟨b, hb⟩ | hError
    · have hRest : (xs.mapM f).outcome = .error e := by
        apply ih hTail
        obtain ⟨x, hx, hError⟩ := hSome
        rcases List.mem_cons.mp hx with rfl | hx
        · rw [hb] at hError
          cases hError
        · exact ⟨x, hx, hError⟩
      rw [bind_of_ok hb, bind_of_error hRest]
    · rw [bind_of_error hError]

/-- The same for a loop over entries and their positions. -/
theorem mapM_zipIdx_of_error {γ : Type} {xs : List α} {cs : List γ} {R : α → γ → Prop}
    {f : α × Nat → Logged ε Ev β} {e : ε} {bound : Nat} (hBound : xs.length ≤ bound)
    (hEach : ∀ a c i, R a c → i < bound →
      (∃ b, (f (a, i)).outcome = .ok b) ∨ (f (a, i)).outcome = .error e)
    (h : List.Forall₂ R xs cs)
    (hSome : ∃ a ∈ xs, ∀ c i, R a c → i < bound → (f (a, i)).outcome = .error e) :
    (xs.zipIdx.mapM f).outcome = .error e := by
  have hKnown : ∀ a ∈ xs, ∃ c, R a c := by
    clear hBound hSome
    induction h with
    | nil => simp
    | cons hHead _ ih => exact List.forall_mem_cons.mpr ⟨⟨_, hHead⟩, ih⟩
  apply mapM_of_error
  · rintro ⟨a, i⟩ hMem
    obtain ⟨hi, rfl⟩ := List.getElem?_eq_some_iff.mp (List.mk_mem_zipIdx_iff_getElem?.mp hMem)
    obtain ⟨c, hc⟩ := hKnown _ (List.getElem_mem hi)
    exact hEach _ c i hc (Nat.lt_of_lt_of_le hi hBound)
  · obtain ⟨a, ha, hError⟩ := hSome
    obtain ⟨i, hi, rfl⟩ := List.mem_iff_getElem.mp ha
    obtain ⟨c, hc⟩ := hKnown _ ha
    exact ⟨(xs[i], i), List.mk_mem_zipIdx_iff_getElem?.mpr (List.getElem?_eq_getElem hi),
      hError c i hc (Nat.lt_of_lt_of_le hi hBound)⟩

theorem forM_ok {xs : List α} {f : α → Logged ε Ev Unit} (h : ∀ a ∈ xs, (f a).outcome = .ok ()) :
    (forM xs f).outcome = .ok () := by
  induction xs with
  | nil => rfl
  | cons a xs ih =>
    obtain ⟨hHead, hTail⟩ := List.forall_mem_cons.mp h
    rw [List.forM_cons]
    exact bind_eq_ok.mpr ⟨(), hHead, ih hTail⟩

/-- A loop comes to an entry if it gets past all entries before it. -/
theorem mem_mapM {xs : List α} {f : α → Logged ε Ev β} {x : α} {e : Ev} {post : List α}
    (hPre : ∀ y ∈ xs, ∃ b, (f y).outcome = .ok b) (he : e ∈ (f x).log) :
    e ∈ ((xs ++ x :: post).mapM f).log := by
  induction xs with
  | nil =>
    rw [List.nil_append, List.mapM_cons]
    exact mem_bind_left he _
  | cons y xs ih =>
    obtain ⟨⟨b, hb⟩, hPre⟩ := List.forall_mem_cons.mp hPre
    rw [List.cons_append, List.mapM_cons]
    exact mem_bind_right hb (mem_bind_left (ih hPre) _)

/-! ## Properties of logs -/

/-- A property of logs that computations can be checked for step by step. -/
structure Stepwise (S : List Ev → Prop) : Prop where
  nil : S []
  append : ∀ {l l'}, S l → S l' → S (l ++ l')

/-- Every event has a property. -/
theorem stepwise_forall (P : Ev → Prop) : Stepwise fun l => ∀ e ∈ l, P e where
  nil := nofun
  append h h' := fun e he => (List.mem_append.mp he).elim (h e) (h' e)

namespace Stepwise

variable {S : List Ev → Prop} (hS : Stepwise S)

include hS

theorem bind {x : Logged ε Ev α} {f : α → Logged ε Ev β} (hx : S x.log)
    (hf : ∀ a, x.outcome = .ok a → S (f a).log) : S (x >>= f).log := by
  cases h : x.outcome with
  | ok a =>
    rw [bind_of_ok h]
    exact hS.append hx (hf a h)
  | error e => rwa [bind_of_error h]

theorem mapM {xs : List α} {f : α → Logged ε Ev β} (h : ∀ a ∈ xs, S (f a).log) :
    S (xs.mapM f).log := by
  induction xs with
  | nil => exact hS.nil
  | cons a xs ih =>
    obtain ⟨hHead, hTail⟩ := List.forall_mem_cons.mp h
    rw [List.mapM_cons]
    exact hS.bind hHead fun b _ => hS.bind (ih hTail) fun bs _ => hS.nil

theorem forM {xs : List α} {f : α → Logged ε Ev Unit} (h : ∀ a ∈ xs, S (f a).log) :
    S (forM xs f).log := by
  induction xs with
  | nil => exact hS.nil
  | cons a xs ih =>
    obtain ⟨hHead, hTail⟩ := List.forall_mem_cons.mp h
    rw [List.forM_cons]
    exact hS.bind hHead fun _ _ => ih hTail

end Stepwise

end Logged
