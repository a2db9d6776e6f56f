import IronArray.Btune.Potential

/-!
# The schedule of a tuner that stops

With `BTUNE_STOP` a run completes the readapts of `schedule` in order and then stops. `Stage` says
where the tuner stands by the readapts that it has yet to complete; a completed readapt takes the
first of them away. `callsLeft` bounds the calls until the stop: it never grows and it falls with
every chunk that replaces nothing.

One kind of configuration never stops: with a hint, no hard readapts, some soft ones and some waits
the tuner waits for ever after its first soft readapt.
-/

namespace IronArray.Btune

/-! ## The schedule -/

def Config.waits (config : Config) : Nat := config.behaviour.nwaitsBeforeReadapt.toNat

def Config.softs (config : Config) : Nat := config.behaviour.nsoftsBeforeHard.toNat

def Config.hards (config : Config) : Nat := config.behaviour.nhardsBeforeStop.toNat

/-- `n` hard readapts, with `softs` soft readapts before each. -/
def rounds (softs n : Nat) : List ReadaptType :=
  (List.replicate n (List.replicate softs .soft ++ [.hard])).flatten

/-- The readapts of a run, in order. -/
def schedule (config : Config) : List ReadaptType :=
  if config.cparamsHint then
    if config.hards = 0 then List.replicate config.softs .soft
    else rounds config.softs config.hards
  else .hard :: rounds config.softs config.hards

/-- The rest of a round with `j` soft readapts left, and `k` rounds after it. -/
def rest (softs j k : Nat) : List ReadaptType := List.replicate j .soft ++ .hard :: rounds softs k

theorem rest_zero (softs k : Nat) : rest softs 0 k = .hard :: rounds softs k := rfl

theorem rest_succ (softs j k : Nat) : rest softs (j + 1) k = .soft :: rest softs j k := rfl

theorem rounds_succ (softs n : Nat) : rounds softs (n + 1) = rest softs softs n := by
  simp [rounds, rest, List.replicate_succ]

/-! ## Stages -/

/-- The tuner has yet to complete `j` soft readapts and a hard one, and then `k` rounds. -/
structure Place (t : Tuner) (j k : Nat) : Prop where
  hards : t.nhards + (k + 1) = t.config.hards
  softs : t.config.softs ∣ t.nsofts + j
  repeating : t.isRepeating = false

theorem Place.eq_zero {t : Tuner} {j k : Nat} (h : Place t j k) (hNone : t.config.softs = 0) :
    j = 0 := by
  have hZero := Nat.eq_zero_of_zero_dvd (hNone ▸ h.softs)
  omega

/-- A hint takes the place of the initial hard readapt. -/
def Tuner.started (t : Tuner) : Prop := (minimumHards t).toNat ≤ t.nhards

/-- Where a tuner stands, with the readapts that it has yet to complete. -/
inductive Stage (t : Tuner) : List ReadaptType → Prop
  | hard (k : Nat) (hFrom : t.readaptFrom = .hard)
      (hState : t.state = .codecFilter ∧ t.auxIndex < 6 * t.codecs.length ∨ t.state = .clevel)
      (hWaits : t.config.waits ∣ t.nwaitings) (hPlace : Place t 0 k) :
      Stage t (rest t.config.softs 0 k)
  | soft (j k : Nat) (hFrom : t.readaptFrom = .soft) (hState : t.state = .clevel)
      (hWaits : t.config.waits ∣ t.nwaitings) (hPlace : Place t (j + 1) k) (hStarted : t.started)
      (hj : j < t.config.softs) :
      Stage t (rest t.config.softs (j + 1) k)
  | wait (j k : Nat) (hFrom : t.readaptFrom = .wait) (hState : t.state = .waiting)
      (hAux : t.auxIndex = 0) (hWaits : 0 < t.config.waits) (hPlace : Place t j k)
      (hStarted : t.started) (hj : t.config.softs = 0 ∨ j < t.config.softs ∧ 0 < t.nsofts) :
      Stage t (rest t.config.softs j k)
  /- Without hard readapts the soft ones are counted to the stop. -/
  | lone (j : Nat) (hFrom : t.readaptFrom = .soft) (hState : t.state = .clevel)
      (hHint : t.config.cparamsHint = true) (hWaits : t.config.waits = 0)
      (hHards : t.config.hards = 0) (hSofts : t.nsofts + (j + 1) = t.config.softs)
      (hRepeating : t.isRepeating = true) : Stage t (.soft :: List.replicate j .soft)
  | ended (hState : t.state = .stop) : Stage t []

/-- The calls of a readapt that replaces nothing. -/
def readaptCalls (ncodecs : Nat) : Nat := 6 * ncodecs + 2

/-- A bound on the calls until the stop, when `todo` readapts are left. -/
def callsLeft (t : Tuner) (todo : Nat) : Nat :=
  let round := readaptCalls t.codecs.length + t.config.waits
  match t.state with
  | .codecFilter =>
    (todo - 1) * round + t.config.waits + (6 * t.codecs.length - t.auxIndex) + 2
  | .clevel => (todo - 1) * round + t.config.waits + (if t.auxIndex = 0 then 2 else 1)
  | .waiting => todo * round + (t.config.waits - t.nwaitings % t.config.waits)
  | _ => 0

section

variable {t : Tuner} {config : Config}

theorem softs_pos : 0 < config.behaviour.nsoftsBeforeHard ↔ 0 < config.softs :=
  UInt32.lt_iff_toNat_lt

theorem softs_eq_zero : config.behaviour.nsoftsBeforeHard = 0 ↔ config.softs = 0 :=
  UInt32.toNat_inj.symm

theorem waits_pos : 0 < config.behaviour.nwaitsBeforeReadapt ↔ 0 < config.waits :=
  UInt32.lt_iff_toNat_lt

theorem waits_eq_zero : config.behaviour.nwaitsBeforeReadapt = 0 ↔ config.waits = 0 :=
  UInt32.toNat_inj.symm

theorem hards_eq_zero : config.behaviour.nhardsBeforeStop = 0 ↔ config.hards = 0 :=
  UInt32.toNat_inj.symm

theorem minimumHards_le (t : Tuner) : (minimumHards t).toNat ≤ 1 := by
  unfold minimumHards
  split <;> decide

theorem orElse_divides {p : Prop} [Decidable p] {n : Nat} {k : UInt32} (h : ¬p → k ≠ 0) :
    orElse p (divides n k) = .ok (decide (p ∨ k.toNat ∣ n)) := by
  unfold orElse
  by_cases hp : p
  · simp [hp]
  · rw [if_neg hp, divides_ok (h hp)]
    simp [hp, Nat.dvd_iff_mod_eq_zero, beq_eq_decide]

theorem andThen_divides {p : Prop} [Decidable p] {n : Nat} {k : UInt32} (h : p → k ≠ 0) :
    andThen p (divides n k) = .ok (decide (p ∧ k.toNat ∣ n)) := by
  unfold andThen
  by_cases hp : p
  · rw [if_pos hp, divides_ok (h hp)]
    simp [hp, Nat.dvd_iff_mod_eq_zero, beq_eq_decide]
  · simp [hp]

/-! ## Readapts that start -/

theorem initSoft_eq (t : Tuner) : ∃ b, initSoft t = { t with
    state := .clevel, stepSize := softStepSize, readaptFrom := .soft
    best := { t.best with increasingClevel := b } } := by
  unfold initSoft
  dsimp only
  split
  · exact ⟨_, rfl⟩
  · exact ⟨t.best.increasingClevel, rfl⟩

/-- The counters that a change of state leaves alone. -/
structure SameCounts (t t' : Tuner) : Prop where
  nhards : t'.nhards = t.nhards
  nsofts : t'.nsofts = t.nsofts
  nwaitings : t'.nwaitings = t.nwaitings
  auxIndex : t'.auxIndex = t.auxIndex

theorem initHard_counts (t : Tuner) : SameCounts t (initHard t) := by
  obtain ⟨b, hEq⟩ := initHard_eq t
  rw [hEq]
  exact ⟨rfl, rfl, rfl, rfl⟩

theorem initSoft_counts (t : Tuner) : SameCounts t (initSoft t) := by
  obtain ⟨b, hEq⟩ := initSoft_eq t
  rw [hEq]
  exact ⟨rfl, rfl, rfl, rfl⟩

theorem initHard_stage {k : Nat} (hCodecs : t.codecs ≠ []) (hAux : t.auxIndex = 0)
    (hWaits : t.config.waits ∣ t.nwaitings) (h : Place t 0 k) :
    Stage (initHard t) (rest t.config.softs 0 k) := by
  have hLength := List.length_pos_iff.mpr hCodecs
  obtain ⟨b, hEq⟩ := initHard_eq t
  rw [hEq]
  refine .hard k rfl (.inl ⟨rfl, ?_⟩) hWaits ⟨h.hards, h.softs, h.repeating⟩
  dsimp only
  omega

theorem initSoft_stage {j k : Nat} (hWaits : t.config.waits ∣ t.nwaitings)
    (h : Place t (j + 1) k) (hStarted : t.started) (hj : j < t.config.softs) :
    Stage (initSoft t) (rest t.config.softs (j + 1) k) := by
  obtain ⟨b, hEq⟩ := initSoft_eq t
  rw [hEq]
  exact .soft j k rfl rfl hWaits ⟨h.hards, h.softs, h.repeating⟩ hStarted hj

theorem initHard_callsLeft (hAux : t.auxIndex = 0) (n : Nat) :
    callsLeft (initHard t) (n + 1) =
      (n + 1) * (readaptCalls t.codecs.length + t.config.waits) := by
  obtain ⟨b, hEq⟩ := initHard_eq t
  rw [hEq]
  simp only [callsLeft, hAux, readaptCalls, Nat.add_sub_cancel, Nat.succ_mul]
  omega

theorem initSoft_callsLeft (hAux : t.auxIndex = 0) (n : Nat) :
    callsLeft (initSoft t) (n + 1) ≤
      (n + 1) * (readaptCalls t.codecs.length + t.config.waits) := by
  obtain ⟨b, hEq⟩ := initSoft_eq t
  rw [hEq]
  simp only [callsLeft, hAux, readaptCalls, if_true, Nat.add_sub_cancel, Nat.succ_mul]
  omega

/-! ## Stages that are entered -/

/-- A stage as it is entered. -/
structure Entered (t : Tuner) (todo : List ReadaptType) : Prop where
  stage : Stage t todo
  auxIndex : t.auxIndex = 0
  callsLeft_le : callsLeft t todo.length ≤
    todo.length * (readaptCalls t.codecs.length + t.config.waits) + t.config.waits

theorem entered_stop (hState : t.state = .stop) (hAux : t.auxIndex = 0) : Entered t [] := by
  refine ⟨.ended hState, hAux, ?_⟩
  simp only [callsLeft, hState]
  exact Nat.zero_le _

theorem entered_initHard {k : Nat} (hCodecs : t.codecs ≠ []) (hAux : t.auxIndex = 0)
    (hWaits : t.config.waits ∣ t.nwaitings) (h : Place t 0 k) :
    Entered (initHard t) (rest t.config.softs 0 k) := by
  refine ⟨initHard_stage hCodecs hAux hWaits h, (initHard_counts t).auxIndex.trans hAux, ?_⟩
  rw [rest_zero, List.length_cons, initHard_callsLeft hAux, (initHard_keeps t).codecs,
    (initHard_keeps t).config]
  omega

theorem entered_initSoft {j k : Nat} (hAux : t.auxIndex = 0)
    (hWaits : t.config.waits ∣ t.nwaitings) (h : Place t (j + 1) k) (hStarted : t.started)
    (hj : j < t.config.softs) :
    Entered (initSoft t) (rest t.config.softs (j + 1) k) := by
  refine ⟨initSoft_stage hWaits h hStarted hj, (initSoft_counts t).auxIndex.trans hAux, ?_⟩
  have hCalls := initSoft_callsLeft hAux (rest t.config.softs j k).length
  rw [rest_succ, List.length_cons, (initSoft_keeps t).codecs, (initSoft_keeps t).config]
  omega

theorem entered_initSoft_lone {j : Nat} (hAux : t.auxIndex = 0)
    (hHint : t.config.cparamsHint = true) (hWaits : t.config.waits = 0)
    (hHards : t.config.hards = 0) (hSofts : t.nsofts + (j + 1) = t.config.softs)
    (hRepeating : t.isRepeating = true) :
    Entered (initSoft t) (.soft :: List.replicate j .soft) := by
  have hCalls := initSoft_callsLeft hAux (List.replicate j ReadaptType.soft).length
  refine ⟨?_, (initSoft_counts t).auxIndex.trans hAux, ?_⟩
  · obtain ⟨b, hEq⟩ := initSoft_eq t
    rw [hEq]
    exact .lone j rfl rfl hHint hWaits hHards hSofts hRepeating
  · rw [List.length_cons, (initSoft_keeps t).codecs, (initSoft_keeps t).config]
    omega

theorem entered_wait {j k : Nat} (hState : t.state = .waiting) (hFrom : t.readaptFrom = .wait)
    (hAux : t.auxIndex = 0) (hPos : 0 < t.config.waits) (h : Place t j k) (hStarted : t.started)
    (hj : t.config.softs = 0 ∨ j < t.config.softs ∧ 0 < t.nsofts) :
    Entered t (rest t.config.softs j k) := by
  refine ⟨.wait j k hFrom hState hAux hPos h hStarted hj, hAux, ?_⟩
  simp only [callsLeft, hState]
  omega

/-! ## Readapts that are completed -/

/-- A hard readapt is followed by the next round, and the last one by the stop. -/
theorem waitingAfterHard_entered {k : Nat} (hCodecs : t.codecs ≠ [])
    (hMode : t.config.behaviour.repeatMode = .stop) (hAux : t.auxIndex = 0)
    (hWaits : t.config.waits ∣ t.nwaitings) (h : Place t 0 k) (hn : t.nhards + 1 < 2 ^ 31) :
    ∃ t', waitingAfterHard t = .ok t' ∧ Entered t' (rounds t.config.softs k) ∧
      t'.nhards = t.nhards + 1 ∧ t'.nsofts = t.nsofts ∧ t'.nwaitings = t.nwaitings := by
  have hHards := h.hards
  have hMinimum := minimumHards_le t
  have hNonzero : t.config.behaviour.nhardsBeforeStop ≠ 0 := fun hZero => by
    have := hards_eq_zero.mp hZero
    omega
  have hLast : orElse (t.config.behaviour.nhardsBeforeStop =
      minimumHards { t with nhards := t.nhards + 1 })
      (divides (t.nhards + 1) t.config.behaviour.nhardsBeforeStop) = .ok (decide (k = 0)) := by
    rw [orElse_divides fun _ => hNonzero]
    congr 2
    apply propext
    constructor
    · rintro (hEq | hDvd)
      · have hNat : t.config.hards = (minimumHards t).toNat := congrArg UInt32.toNat hEq
        omega
      · have hLe : t.config.hards ≤ t.nhards + 1 := Nat.le_of_dvd (Nat.succ_pos _) hDvd
        omega
    · intro hk
      right
      change t.config.hards ∣ t.nhards + 1
      rw [← hHards, hk]
  simp only [waitingAfterHard, increment_ok hn, ok_bind, assertThat_ok (Nat.succ_pos t.nhards),
    hLast, hMode, softs_pos, waits_pos]
  cases k with
  | zero =>
    simp only [decide_true, if_true, ne_eq, not_true, and_false, if_false, reduceCtorEq,
      not_false_eq_true]
    exact ⟨_, rfl, entered_stop rfl hAux, rfl, rfl, rfl⟩
  | succ k =>
    have hStarted : (minimumHards t).toNat ≤ t.nhards + 1 := by omega
    simp only [Nat.succ_ne_zero, decide_false, Bool.false_eq_true, if_false]
    rw [rounds_succ]
    by_cases hSofts : 0 < t.config.softs
    · obtain ⟨j, hj⟩ : ∃ j, j + 1 = t.config.softs := ⟨t.config.softs - 1, by omega⟩
      have hNext : Place { t with nhards := t.nhards + 1 } (j + 1) k :=
        ⟨by dsimp only; omega, (Nat.dvd_add_right h.softs).mpr (hj ▸ dvd_rfl), h.repeating⟩
      have hCounts := initSoft_counts { t with nhards := t.nhards + 1 }
      rw [if_pos hSofts]
      refine ⟨_, rfl, ?_, hCounts.nhards, hCounts.nsofts, hCounts.nwaitings⟩
      have hEntered := @entered_initSoft { t with nhards := t.nhards + 1 } j k hAux hWaits hNext
        hStarted (by dsimp only; omega)
      rwa [hj] at hEntered
    · have hNext : Place { t with nhards := t.nhards + 1 } 0 k :=
        ⟨by dsimp only; omega, h.softs, h.repeating⟩
      have hNone : t.config.softs = 0 := by omega
      rw [if_neg hSofts]
      by_cases hPos : 0 < t.config.waits
      · rw [if_pos hPos]
        refine ⟨_, rfl, ?_, rfl, rfl, rfl⟩
        have hEntered := @entered_wait (initWait { t with nhards := t.nhards + 1 }) 0 k rfl rfl
          hAux hPos ⟨hNext.hards, hNext.softs, hNext.repeating⟩ hStarted (.inl hNone)
        rwa [← hNone] at hEntered
      · have hCounts := initHard_counts { t with nhards := t.nhards + 1 }
        rw [if_neg hPos]
        refine ⟨_, rfl, ?_, hCounts.nhards, hCounts.nsofts, hCounts.nwaitings⟩
        have hEntered := @entered_initHard { t with nhards := t.nhards + 1 } k hCodecs hAux hWaits
          hNext
        rwa [← hNone] at hEntered

theorem minimumHards_lt {j k : Nat} (h : Place t j k) (hStarted : t.started) :
    minimumHards t < t.config.behaviour.nhardsBeforeStop := by
  have hHards := h.hards
  have hLe : (minimumHards t).toNat ≤ t.nhards := hStarted
  apply UInt32.lt_iff_toNat_lt.mpr
  change (minimumHards t).toNat < t.config.hards
  omega

/-- Before the hard readapt that follows, no soft readapt is left. -/
theorem softs_dvd_iff {softs n j : Nat} (h : softs ∣ n + j) (hj : softs = 0 ∨ j < softs) :
    softs ∣ n ↔ j = 0 := by
  constructor
  · intro hn
    have hDvd : softs ∣ j := (Nat.dvd_add_right hn).mp h
    rcases hj with hZero | hLt
    · exact Nat.eq_zero_of_zero_dvd (hZero ▸ hDvd)
    · exact Nat.eq_zero_of_dvd_of_lt hDvd hLt
  · rintro rfl
    exact h

/-- A soft readapt is followed by a wait if there is one, and else by the next readapt. -/
theorem waitingAfterSoft_entered {j k : Nat} (hCodecs : t.codecs ≠ [])
    (hState : t.state = .waiting) (hAux : t.auxIndex = 0)
    (hWaits : t.config.waits ∣ t.nwaitings) (h : Place t (j + 1) k) (hStarted : t.started)
    (hj : j < t.config.softs) (hn : t.nsofts + 1 < 2 ^ 31) :
    ∃ t', waitingAfterSoft t = .ok t' ∧
      Entered t' (rest t.config.softs j k) ∧
      t'.nhards = t.nhards ∧ t'.nsofts = t.nsofts + 1 ∧ t'.nwaitings = t.nwaitings := by
  have hNext : Place { t with nsofts := t.nsofts + 1, readaptFrom := .wait } j k :=
    ⟨h.hards, by have := h.softs; dsimp only; rwa [Nat.add_right_comm, Nat.add_assoc], h.repeating⟩
  have hMinimum := minimumHards_lt hNext hStarted
  have hSofts : t.config.behaviour.nsoftsBeforeHard ≠ 0 := fun hZero => by
    have := softs_eq_zero.mp hZero
    omega
  have hLast : orElse (t.config.behaviour.nsoftsBeforeHard = 0)
      (divides (t.nsofts + 1) t.config.behaviour.nsoftsBeforeHard) = .ok (decide (j = 0)) := by
    rw [orElse_divides fun _ => hSofts]
    congr 2
    apply propext
    simp only [hSofts, false_or]
    exact softs_dvd_iff hNext.softs (.inr hj)
  have hHards : ¬ t.config.behaviour.nhardsBeforeStop = 0 := fun hZero => by
    have := hards_eq_zero.mp hZero
    have := h.hards
    omega
  simp only [waitingAfterSoft, increment_ok hn, ok_bind, assertThat_ok (Nat.succ_pos t.nsofts),
    hLast, waits_eq_zero, andThen, hHards, and_false, if_false, Bool.false_eq_true, false_and]
  have hFirst : ¬ (t.isRepeating = true ∧ t.config.behaviour.repeatMode ≠ .repeatAll) := by
    simp [h.repeating]
  by_cases hNone : t.config.waits = 0
  · rw [if_pos hNone]
    cases j with
    | zero =>
      have hCounts := initHard_counts { t with nsofts := t.nsofts + 1, readaptFrom := .wait }
      rw [if_pos ⟨by decide, hFirst, hMinimum⟩]
      refine ⟨_, rfl, ?_, hCounts.nhards, hCounts.nsofts, hCounts.nwaitings⟩
      exact entered_initHard hCodecs hAux hWaits hNext
    | succ j =>
      have hCounts := initSoft_counts { t with nsofts := t.nsofts + 1, readaptFrom := .wait }
      rw [if_neg (by simp)]
      refine ⟨_, rfl, ?_, hCounts.nhards, hCounts.nsofts, hCounts.nwaitings⟩
      exact entered_initSoft hAux hWaits hNext hStarted (Nat.lt_of_succ_lt hj)
  · rw [if_neg hNone]
    refine ⟨_, rfl, ?_, rfl, rfl, rfl⟩
    exact entered_wait hState rfl hAux (Nat.pos_of_ne_zero hNone) hNext hStarted
      (.inr ⟨hj, Nat.succ_pos _⟩)

/-- Without hard readapts the last soft readapt is followed by the stop. -/
theorem waitingAfterSoft_lone {j : Nat} (hMode : t.config.behaviour.repeatMode = .stop)
    (hAux : t.auxIndex = 0) (hHint : t.config.cparamsHint = true) (hWaits : t.config.waits = 0)
    (hHards : t.config.hards = 0) (hSofts : t.nsofts + (j + 1) = t.config.softs)
    (hRepeating : t.isRepeating = true) (hn : t.nsofts + 1 < 2 ^ 31) :
    ∃ t', waitingAfterSoft t = .ok t' ∧ Entered t' (List.replicate j .soft) ∧
      t'.nhards = t.nhards ∧ t'.nsofts = t.nsofts + 1 ∧ t'.nwaitings = t.nwaitings := by
  have hNonzero : t.config.behaviour.nsoftsBeforeHard ≠ 0 := fun hZero => by
    have := softs_eq_zero.mp hZero
    omega
  have hLast := @orElse_divides (t.config.behaviour.nsoftsBeforeHard = 0) _ (t.nsofts + 1)
    t.config.behaviour.nsoftsBeforeHard fun _ => hNonzero
  have hDvd : t.config.behaviour.nsoftsBeforeHard.toNat ∣ t.nsofts + 1 ↔ j = 0 := by
    constructor
    · intro hDvd
      have hLe : t.config.softs ≤ t.nsofts + 1 := Nat.le_of_dvd (Nat.succ_pos _) hDvd
      omega
    · rintro rfl
      exact Dvd.intro_left 1 (by rw [hSofts, Nat.one_mul]; rfl)
  have hMinimum : minimumHards { t with nsofts := t.nsofts + 1, readaptFrom := .wait } = 0 := by
    simp [minimumHards, hHint]
  have hLastSoft := @andThen_divides
    (minimumHards { t with nsofts := t.nsofts + 1, readaptFrom := .wait } = 0 ∧
      t.config.behaviour.nhardsBeforeStop = 0) _ (t.nsofts + 1)
    t.config.behaviour.nsoftsBeforeHard fun _ => hNonzero
  simp only [waitingAfterSoft, increment_ok hn, ok_bind, assertThat_ok (Nat.succ_pos t.nsofts),
    hLast, hLastSoft, waits_eq_zero, hWaits, if_true]
  rw [if_neg (by simp [hRepeating, hMode])]
  simp only [hMinimum, hards_eq_zero.mpr hHards, true_and, hDvd, hMode, and_true,
    decide_eq_true_eq]
  cases j with
  | zero =>
    rw [if_pos rfl]
    exact ⟨_, rfl, entered_stop rfl hAux, rfl, rfl, rfl⟩
  | succ j =>
    have hCounts := initSoft_counts { t with nsofts := t.nsofts + 1, readaptFrom := .wait }
    rw [if_neg (Nat.succ_ne_zero j)]
    refine ⟨_, rfl, ?_, hCounts.nhards, hCounts.nsofts, hCounts.nwaitings⟩
    exact entered_initSoft_lone hAux hHint hWaits hHards (by dsimp only; omega) hRepeating

/-- The last wait is followed by the readapt that is due. -/
theorem waitingAfterWait_entered {j k : Nat} (hCodecs : t.codecs ≠ [])
    (hState : t.state = .waiting) (hFrom : t.readaptFrom = .wait) (hAux : t.auxIndex = 0)
    (hPos : 0 < t.config.waits) (h : Place t j k) (hStarted : t.started)
    (hj : t.config.softs = 0 ∨ j < t.config.softs ∧ 0 < t.nsofts) (hn : 0 < t.nwaitings) :
    ∃ t', waitingAfterWait t = .ok t' ∧
      Stage t' (rest t.config.softs j k) ∧ SameCounts t t' ∧
      (t' = t ∧ ¬ t.config.waits ∣ t.nwaitings ∨
        callsLeft t' (rest t.config.softs j k).length ≤ (rest t.config.softs j k).length *
          (readaptCalls t.codecs.length + t.config.waits)) := by
  have hMinimum := minimumHards_lt h hStarted
  have hNonzero : t.config.behaviour.nwaitsBeforeReadapt ≠ 0 := fun hZero => by
    have := waits_eq_zero.mp hZero
    omega
  have hLastWait : orElse (t.config.behaviour.nwaitsBeforeReadapt = 0)
      (andThen (t.nwaitings ≠ 0) (divides t.nwaitings t.config.behaviour.nwaitsBeforeReadapt)) =
      .ok (decide (t.config.waits ∣ t.nwaitings)) := by
    rw [andThen_divides fun _ => hNonzero, orElse, if_neg hNonzero]
    simp only [ne_eq, hn.ne', not_false_eq_true, true_and]
    rfl
  have hLast : orElse (t.config.behaviour.nsoftsBeforeHard = 0)
      (andThen (t.nsofts ≠ 0) (divides t.nsofts t.config.behaviour.nsoftsBeforeHard)) =
      .ok (decide (j = 0)) := by
    by_cases hSofts : t.config.behaviour.nsoftsBeforeHard = 0
    · have hNone := softs_eq_zero.mp hSofts
      have hZero : j = 0 := h.eq_zero hNone
      simp [orElse, hSofts, hZero]
    · have hPositive : t.nsofts ≠ 0 := by
        have := softs_eq_zero.not.mp hSofts
        omega
      rw [andThen_divides fun _ => hSofts, orElse, if_neg hSofts]
      congr 2
      apply propext
      simp only [ne_eq, hPositive, not_false_eq_true, true_and]
      exact softs_dvd_iff h.softs (hj.imp_right And.left)
  have hFirst : ∀ p : Prop, ¬ (t.isRepeating = true ∧ p) := by
    simp [h.repeating]
  simp only [waitingAfterWait, hLastWait, hLast, ok_bind, decide_eq_true_eq, hMinimum, hFirst,
    not_false_eq_true, and_true, softs_pos]
  by_cases hDue : t.config.waits ∣ t.nwaitings
  · rw [if_pos hDue]
    cases j with
    | zero =>
      rw [if_pos rfl]
      refine ⟨_, rfl, initHard_stage hCodecs hAux hDue h, initHard_counts t, .inr ?_⟩
      rw [rest_zero, List.length_cons, initHard_callsLeft hAux]
    | succ j =>
      have hLt : j + 1 < t.config.softs :=
        (hj.resolve_left fun hNone => Nat.succ_ne_zero j (h.eq_zero hNone)).1
      rw [if_neg (Nat.succ_ne_zero j), if_pos (by omega)]
      refine ⟨_, rfl, initSoft_stage hDue h hStarted (by omega), initSoft_counts t, .inr ?_⟩
      rw [rest_succ, List.length_cons]
      exact initSoft_callsLeft hAux _
  · rw [if_neg hDue]
    exact ⟨t, rfl, .wait j k hFrom hState hAux hPos h hStarted hj, ⟨rfl, rfl, rfl, rfl⟩,
      .inl ⟨rfl, hDue⟩⟩

/-- The part of a tuner that its stage depends on. -/
structure SameStage (t u : Tuner) : Prop where
  config : u.config = t.config
  codecs : u.codecs = t.codecs
  state : u.state = t.state
  readaptFrom : u.readaptFrom = t.readaptFrom
  isRepeating : u.isRepeating = t.isRepeating
  nhards : u.nhards = t.nhards
  nsofts : u.nsofts = t.nsofts
  nwaitings : u.nwaitings = t.nwaitings
  auxIndex : t.state ≠ .clevel → u.auxIndex = t.auxIndex

theorem SameStage.place {u : Tuner} (hu : SameStage t u) {j k : Nat} (h : Place t j k) :
    Place u j k :=
  ⟨by rw [hu.nhards, hu.config, h.hards], by rw [hu.nsofts, hu.config]; exact h.softs,
    hu.isRepeating.trans h.repeating⟩

theorem SameStage.started {u : Tuner} (hu : SameStage t u) (h : t.started) : u.started := by
  rw [Tuner.started, minimumHards, hu.config, hu.nhards]
  exact h

theorem Stage.congr {u : Tuner} {todo : List ReadaptType} (h : Stage t todo)
    (hu : SameStage t u) : Stage u todo := by
  cases h with
  | hard k hFrom hState hWaits h =>
    rw [← hu.config]
    refine .hard k (hu.readaptFrom.trans hFrom) ?_ (by rwa [hu.config, hu.nwaitings]) (hu.place h)
    rw [hu.state, hu.codecs]
    rcases hState with ⟨hState, hIndex⟩ | hState
    · left
      rw [hu.auxIndex (by rw [hState]; nofun)]
      exact ⟨hState, hIndex⟩
    · exact .inr hState
  | soft j k hFrom hState hWaits h hStarted hj =>
    rw [← hu.config]
    exact .soft j k (hu.readaptFrom.trans hFrom) (hu.state.trans hState)
      (by rwa [hu.config, hu.nwaitings]) (hu.place h) (hu.started hStarted) (by rwa [hu.config])
  | wait j k hFrom hState hAux hWaits h hStarted hj =>
    rw [← hu.config]
    refine .wait j k (hu.readaptFrom.trans hFrom) (hu.state.trans hState) ?_ (by rwa [hu.config])
      (hu.place h) (hu.started hStarted) (by rwa [hu.config, hu.nsofts])
    rw [hu.auxIndex (by rw [hState]; nofun), hAux]
  | lone j hFrom hState hHint hWaits hHards hSofts hRepeating =>
    exact .lone j (hu.readaptFrom.trans hFrom) (hu.state.trans hState) (by rwa [hu.config])
      (by rwa [hu.config]) (by rwa [hu.config]) (by rwa [hu.config, hu.nsofts])
      (hu.isRepeating.trans hRepeating)
  | ended hState => exact .ended (hu.state.trans hState)

theorem processWaitingState_eq_ok {t' : Tuner} (h : leaveWaiting t = .ok t') :
    ∃ n, processWaitingState t = .ok { t' with stepSize := n } := by
  unfold processWaitingState
  dsimp only
  rw [h, ok_bind]
  split
  · exact ⟨_, rfl⟩
  · exact ⟨t'.stepSize, rfl⟩

/-- The readapts that are completed between two states. -/
def completed (t t' : Tuner) : List ReadaptType :=
  List.replicate (t'.nhards - t.nhards) .hard ++ List.replicate (t'.nsofts - t.nsofts) .soft

theorem completed_nil {t' : Tuner} (hHards : t'.nhards = t.nhards)
    (hSofts : t'.nsofts = t.nsofts) (todo : List ReadaptType) : completed t t' ++ todo = todo := by
  simp [completed, hHards, hSofts]

theorem completed_hard {t' : Tuner} (hHards : t'.nhards = t.nhards + 1)
    (hSofts : t'.nsofts = t.nsofts) : completed t t' = [.hard] := by
  simp [completed, hHards, hSofts]

theorem completed_soft {t' : Tuner} (hHards : t'.nhards = t.nhards)
    (hSofts : t'.nsofts = t.nsofts + 1) : completed t t' = [.soft] := by
  simp [completed, hHards, hSofts]

/-- The counters after one chunk. -/
structure Advanced (t t' : Tuner) : Prop where
  nhards : t'.nhards ≤ t.nhards + 1
  nsofts : t'.nsofts ≤ t.nsofts + 1
  nwaitings : t'.nwaitings ≤ t.nwaitings + 1
  auxIndex : t'.auxIndex ≤ t.auxIndex + 1

/-- The tuner between the choice of the parameters and `update_aux`. -/
structure Counted (t u : Tuner) : Prop where
  config : u.config = t.config
  codecs : u.codecs = t.codecs
  filterSplitLimit : u.filterSplitLimit = 6
  state : u.state = t.state
  readaptFrom : u.readaptFrom = t.readaptFrom
  isRepeating : u.isRepeating = t.isRepeating
  nhards : u.nhards = t.nhards
  nsofts : u.nsofts = t.nsofts
  nwaitings : u.nwaitings = t.counted.nwaitings
  auxIndex : u.auxIndex = t.counted.auxIndex

/-- What one chunk does to the schedule. -/
structure Moved (t t' : Tuner) (todo : List ReadaptType) (improved : Bool) : Prop where
  advanced : Advanced t t'
  stage : ∃ todo', completed t t' ++ todo' = todo ∧ Stage t' todo' ∧
    callsLeft t' todo'.length + (if improved then 0 else 1) ≤ callsLeft t todo.length

theorem Entered.moved {t' : Tuner} {r : ReadaptType} {todo : List ReadaptType}
    (h : Entered t' todo) (hState : t.state = .clevel) (hConfig : t'.config = t.config)
    (hCodecs : t'.codecs = t.codecs) (hCompleted : completed t t' = [r])
    (hHards : t'.nhards ≤ t.nhards + 1) (hSofts : t'.nsofts ≤ t.nsofts + 1)
    (hWaitings : t'.nwaitings = t.nwaitings) (n : Nat) (improved : Bool) :
    Moved t { t' with stepSize := n } (r :: todo) improved := by
  have hAux := h.auxIndex
  refine ⟨⟨hHards, hSofts, hWaitings.trans_le (Nat.le_succ _), by dsimp only; omega⟩, todo, ?_,
    h.stage.congr ⟨rfl, rfl, rfl, rfl, rfl, rfl, rfl, rfl, fun _ => rfl⟩, ?_⟩
  · change completed t t' ++ todo = r :: todo
    rw [hCompleted, List.singleton_append]
  · have hCalls := h.callsLeft_le
    rw [hConfig, hCodecs] at hCalls
    have hAfter : callsLeft { t' with stepSize := n } todo.length = callsLeft t' todo.length := rfl
    have hBefore : todo.length * (readaptCalls t.codecs.length + t.config.waits) + t.config.waits +
        1 ≤ callsLeft t (todo.length + 1) := by
      simp only [callsLeft, hState, Nat.add_sub_cancel]
      split <;> omega
    rw [hAfter, List.length_cons]
    split <;> omega

/-- The compression level is settled, and the tuner leaves the readapt for what comes after it. -/
theorem moved_of_leaveWaiting {v t' : Tuner} {r : ReadaptType} {todo : List ReadaptType}
    (hState : t.state = .clevel) (hv : SameStage { t with state := .waiting, auxIndex := 0 } v)
    (hLeave : leaveWaiting v = .ok t') (hKeeps : Keeps v t') (h : Entered t' todo)
    (hCompleted : completed v t' = [r]) (hHards : t'.nhards ≤ v.nhards + 1)
    (hSofts : t'.nsofts ≤ v.nsofts + 1) (hWaitings : t'.nwaitings = v.nwaitings)
    (improved : Bool) :
    ∃ t', processWaitingState v = .ok t' ∧ Moved t t' (r :: todo) improved := by
  obtain ⟨n, hProcess⟩ := processWaitingState_eq_ok hLeave
  rw [completed, hv.nhards, hv.nsofts] at hCompleted
  rw [hv.nhards] at hHards
  rw [hv.nsofts] at hSofts
  exact ⟨_, hProcess, h.moved hState (hKeeps.config.trans hv.config)
    (hKeeps.codecs.trans hv.codecs) hCompleted hHards hSofts (hWaitings.trans hv.nwaitings) n
    improved⟩

theorem clevel_completed {u : Tuner} {todo : List ReadaptType} (hCodecs : t.codecs ≠ [])
    (hMode : t.config.behaviour.repeatMode = .stop) (hHards : t.nhards + 1 < 2 ^ 31)
    (hSofts : t.nsofts + 1 < 2 ^ 31) (h : Stage t todo) (hState : t.state = .clevel)
    (hu : Counted t u) (x y improved : Bool) :
    ∃ t', processWaitingState { u.turned x y with auxIndex := 0, state := .waiting } = .ok t' ∧
      Moved t t' todo improved := by
  have hWaitings : u.nwaitings = t.nwaitings := by
    rw [hu.nwaitings, Tuner.counted]
    simp only [hState]
  obtain ⟨v, hTurned⟩ : ∃ v, v = { u.turned x y with auxIndex := 0, state := .waiting } := ⟨_, rfl⟩
  rw [← hTurned]
  have hv : SameStage { t with state := .waiting, auxIndex := 0 } v := by
    rw [hTurned]
    exact ⟨hu.config, hu.codecs, rfl, hu.readaptFrom, hu.isRepeating, hu.nhards, hu.nsofts,
      hWaitings, fun _ => rfl⟩
  have hAux : v.auxIndex = 0 := by rw [hTurned]
  have hUsed : v.state.Used := by
    rw [hv.state]
    trivial
  have hvPlace : ∀ {j k : Nat}, Place t j k → Place v j k :=
    fun h => hv.place ⟨h.hards, h.softs, h.repeating⟩
  rw [← hv.nhards] at hHards
  rw [← hv.nsofts] at hSofts
  rw [← hv.codecs] at hCodecs
  cases h with
  | hard k hFrom _ hWaits hPlace =>
    rw [← hv.config] at hMode hWaits ⊢
    rw [← hv.nwaitings] at hWaits
    obtain ⟨t', hLeave, hEntered, hHards', hSofts', hWaitings'⟩ :=
      waitingAfterHard_entered hCodecs hMode hAux hWaits (hvPlace hPlace) hHards
    refine moved_of_leaveWaiting hState hv ?_ (waitingAfterHard_keeps hLeave).1 hEntered
      (completed_hard hHards' hSofts') hHards'.le (hSofts'.trans_le (Nat.le_succ _)) hWaitings'
      improved
    rw [leaveWaiting, hv.readaptFrom.trans hFrom]
    exact hLeave
  | soft j k hFrom _ hWaits hPlace hStarted hj =>
    rw [← hv.config] at hWaits hj ⊢
    rw [← hv.nwaitings] at hWaits
    obtain ⟨t', hLeave, hEntered, hHards', hSofts', hWaitings'⟩ :=
      waitingAfterSoft_entered hCodecs hv.state hAux hWaits (hvPlace hPlace)
        (hv.started hStarted) hj hSofts
    refine moved_of_leaveWaiting hState hv ?_ (waitingAfterSoft_keeps hUsed hLeave).1 hEntered
      (completed_soft hHards' hSofts') (hHards'.trans_le (Nat.le_succ _)) hSofts'.le hWaitings'
      improved
    rw [leaveWaiting, hv.readaptFrom.trans hFrom]
    exact hLeave
  | lone j hFrom _ hHint hWaits hNoHards hLone hRepeating =>
    rw [← hv.config] at hMode hHint hWaits hNoHards hLone
    rw [← hv.nsofts] at hLone
    obtain ⟨t', hLeave, hEntered, hHards', hSofts', hWaitings'⟩ :=
      waitingAfterSoft_lone hMode hAux hHint hWaits hNoHards hLone
        (hv.isRepeating.trans hRepeating) hSofts
    refine moved_of_leaveWaiting hState hv ?_ (waitingAfterSoft_keeps hUsed hLeave).1 hEntered
      (completed_soft hHards' hSofts') (hHards'.trans_le (Nat.le_succ _)) hSofts'.le hWaitings'
      improved
    rw [leaveWaiting, hv.readaptFrom.trans hFrom]
    exact hLeave
  | wait j k _ hWaiting => simp [hState] at hWaiting
  | ended hStop => simp [hState] at hStop

/-- After a second chunk that replaces nothing the compression level is settled. -/
theorem updateClevel_settles (ctx : Context) {u : Tuner} (hAux : u.auxIndex ≠ 1) :
    ∃ x y, updateClevel ctx u false =
      { u.turned x y with auxIndex := 0, state := .waiting } := by
  have hFirst : (u.auxIndex == repeatsPerCparams) = false := beq_false_of_ne hAux
  have hTurn : (if !false ∧ u.auxIndex == repeatsPerCparams then u.flipClevel else u) = u :=
    if_neg (by simp [hFirst])
  have hNext : (if disableBlocksize then afterBlocksize else State.blocksize) = .waiting := rfl
  unfold updateClevel
  dsimp only
  rw [hTurn, hNext, if_pos (.inr ⟨rfl, by rw [hFirst]; rfl⟩)]
  split
  · exact ⟨u.best.increasingClevel, _, rfl⟩
  · exact ⟨u.best.increasingClevel, u.best.increasingBlock, rfl⟩

theorem Counted.turned {u : Tuner} (hu : Counted t u) (hState : t.state = .clevel) (x y : Bool) :
    SameStage t (u.turned x y) := by
  refine ⟨hu.config, hu.codecs, hu.state, hu.readaptFrom, hu.isRepeating, hu.nhards, hu.nsofts,
    hu.nwaitings.trans ?_, fun hOther => absurd hState hOther⟩
  rw [Tuner.counted]
  simp only [hState]

theorem clevel_moved {u : Tuner} {todo : List ReadaptType} (hCodecs : t.codecs ≠ [])
    (hMode : t.config.behaviour.repeatMode = .stop) (hHards : t.nhards + 1 < 2 ^ 31)
    (hSofts : t.nsofts + 1 < 2 ^ 31) (h : Stage t todo) (hState : t.state = .clevel)
    (hu : Counted t u) (ctx : Context) (improved : Bool) :
    ∃ t', updateAux ctx u improved = .ok t' ∧ Moved t t' todo improved := by
  have hIndex : u.auxIndex = t.auxIndex + 1 := by
    rw [hu.auxIndex, Tuner.counted]
    simp only [hState]
  have hWaitings : u.nwaitings = t.nwaitings := (hu.turned hState false false).nwaitings
  have hNext : nextState ctx u improved = updateClevel ctx u improved := by
    rw [nextState, hu.state, hState]
  rw [updateAux, hNext]
  by_cases hSettles : improved = false ∧ u.auxIndex ≠ 1
  · obtain ⟨rfl, hSecond⟩ := hSettles
    obtain ⟨x, y, hEq⟩ := updateClevel_settles ctx hSecond
    rw [hEq, if_pos rfl]
    exact clevel_completed hCodecs hMode hHards hSofts h hState hu x y false
  obtain ⟨x, y, hEq | hEq⟩ := updateClevel_cases ctx u improved
  · have hGoesOn : (u.turned x y).state = .clevel := hu.state.trans hState
    rw [hEq, if_neg (by rw [hGoesOn]; decide)]
    refine ⟨_, rfl, ⟨hu.nhards.trans_le (Nat.le_succ _), hu.nsofts.trans_le (Nat.le_succ _),
      hWaitings.trans_le (Nat.le_succ _), hIndex.le⟩, todo, ?_,
      h.congr (hu.turned hState x y), ?_⟩
    · exact completed_nil hu.nhards hu.nsofts todo
    · have hAfter : (u.turned x y).auxIndex ≠ 0 := by
        change u.auxIndex ≠ 0
        omega
      have hConfig : (u.turned x y).config = t.config := hu.config
      have hSame : (u.turned x y).codecs = t.codecs := hu.codecs
      simp only [callsLeft, hGoesOn, hState, hConfig, hSame, hAfter, if_false]
      cases improved with
      | true =>
        simp only [if_true]
        split <;> omega
      | false =>
        have hFirst : t.auxIndex = 0 := by
          by_contra hLater
          exact hSettles ⟨rfl, by omega⟩
        simp only [hFirst, if_true, Bool.false_eq_true, if_false]
        omega
  · rw [hEq, if_pos rfl]
    exact clevel_completed hCodecs hMode hHards hSofts h hState hu x y improved

theorem codecFilter_moved {u : Tuner} {k : Nat} (hFrom : t.readaptFrom = .hard)
    (hState : t.state = .codecFilter) (hIndex : t.auxIndex < 6 * t.codecs.length)
    (hWaits : t.config.waits ∣ t.nwaitings) (hPlace : Place t 0 k) (hu : Counted t u)
    (ctx : Context) (improved : Bool) :
    ∃ t', updateAux ctx u improved = .ok t' ∧
      Moved t t' (rest t.config.softs 0 k) improved := by
  have hCount : u.auxIndex = t.auxIndex + 1 := by
    rw [hu.auxIndex, Tuner.counted]
    simp only [hState]
  have hWaitings : u.nwaitings = t.nwaitings := by
    rw [hu.nwaitings, Tuner.counted]
    simp only [hState]
  have hPlace' : Place u 0 k :=
    ⟨by rw [hu.nhards, hu.config, hPlace.hards], by rw [hu.nsofts, hu.config]; exact hPlace.softs,
      hu.isRepeating.trans hPlace.repeating⟩
  have hWaits' : u.config.waits ∣ u.nwaitings := by rwa [hu.config, hWaitings]
  have hNext : nextState ctx u improved = updateCodecFilter u := by
    rw [nextState, hu.state, hState]
  rw [updateAux, hNext, updateCodecFilter_eq, hu.filterSplitLimit, hu.codecs]
  by_cases hLast : u.auxIndex / 6 = t.codecs.length
  · rw [if_pos hLast]
    refine ⟨_, rfl, ⟨hu.nhards.trans_le (Nat.le_succ _), hu.nsofts.trans_le (Nat.le_succ _),
      hWaitings.trans_le (Nat.le_succ _), Nat.zero_le _⟩, _,
      completed_nil hu.nhards hu.nsofts _, ?_, ?_⟩
    · rw [← hu.config]
      exact .hard k (hu.readaptFrom.trans hFrom) (.inr rfl) hWaits'
        ⟨hPlace'.hards, hPlace'.softs, hPlace'.repeating⟩
    · simp only [callsLeft, hState, hu.config, if_true]
      split <;> omega
  · rw [if_neg hLast, if_neg (by rw [hu.state, hState]; decide)]
    refine ⟨_, rfl, ⟨hu.nhards.trans_le (Nat.le_succ _), hu.nsofts.trans_le (Nat.le_succ _),
      hWaitings.trans_le (Nat.le_succ _), hCount.le⟩, _,
      completed_nil hu.nhards hu.nsofts _, ?_, ?_⟩
    · rw [← hu.config]
      refine .hard k (hu.readaptFrom.trans hFrom) (.inl ⟨hu.state.trans hState, ?_⟩) hWaits' hPlace'
      rw [hu.codecs]
      omega
    · simp only [callsLeft, hu.state, hState, hu.config, hu.codecs]
      split <;> omega

theorem succ_mod_of_not_dvd {n k : Nat} (hk : 0 < k) (h : ¬ k ∣ n + 1) :
    (n + 1) % k = n % k + 1 := by
  have hLt := Nat.mod_lt n hk
  have hDiv := Nat.div_add_mod n k
  have hNe : n % k + 1 ≠ k := fun hEq => h ⟨n / k + 1, by rw [Nat.mul_succ]; omega⟩
  calc (n + 1) % k = (k * (n / k) + (n % k + 1)) % k := by rw [← Nat.add_assoc, hDiv]
    _ = (n % k + 1) % k := Nat.mul_add_mod ..
    _ = n % k + 1 := Nat.mod_eq_of_lt (by omega)

theorem wait_moved {u : Tuner} {j k : Nat} (hCodecs : t.codecs ≠ [])
    (hFrom : t.readaptFrom = .wait) (hState : t.state = .waiting) (hAux : t.auxIndex = 0)
    (hWaits : 0 < t.config.waits) (hPlace : Place t j k) (hStarted : t.started)
    (hj : t.config.softs = 0 ∨ j < t.config.softs ∧ 0 < t.nsofts) (hu : Counted t u)
    (ctx : Context) (improved : Bool) :
    ∃ t', updateAux ctx u improved = .ok t' ∧
      Moved t t' (rest t.config.softs j k) improved := by
  have hCount : u.nwaitings = t.nwaitings + 1 := by
    rw [hu.nwaitings, Tuner.counted]
    simp only [hState]
  have hIndex : u.auxIndex = t.auxIndex := by
    rw [hu.auxIndex, Tuner.counted]
    simp only [hState]
  have hWaiting : u.state = .waiting := hu.state.trans hState
  have hNext : nextState ctx u improved = u := by
    rw [nextState, hWaiting]
  have hPlace' : Place u j k :=
    ⟨by rw [hu.nhards, hu.config, hPlace.hards], by rw [hu.nsofts, hu.config]; exact hPlace.softs,
      hu.isRepeating.trans hPlace.repeating⟩
  have hStarted' : u.started := by
    rw [Tuner.started, minimumHards, hu.config, hu.nhards]
    exact hStarted
  obtain ⟨t', hLeave, hStage, hCounts, hCalls⟩ := waitingAfterWait_entered (hu.codecs ▸ hCodecs)
    hWaiting (hu.readaptFrom.trans hFrom) (hIndex.trans hAux) (by rwa [hu.config]) hPlace'
    hStarted' (by rwa [hu.config, hu.nsofts]) (by omega)
  obtain ⟨n, hProcess⟩ := processWaitingState_eq_ok
    (show leaveWaiting u = .ok t' by rw [leaveWaiting, hu.readaptFrom, hFrom]; exact hLeave)
  rw [updateAux, hNext, if_pos hWaiting]
  refine ⟨_, hProcess, ⟨?_, ?_, ?_, ?_⟩, _,
    completed_nil (hCounts.nhards.trans hu.nhards) (hCounts.nsofts.trans hu.nsofts) _, ?_, ?_⟩
  · exact (hCounts.nhards.trans hu.nhards).trans_le (Nat.le_succ _)
  · exact (hCounts.nsofts.trans hu.nsofts).trans_le (Nat.le_succ _)
  · exact (hCounts.nwaitings.trans hCount).le
  · exact (hCounts.auxIndex.trans hIndex).trans_le (Nat.le_succ _)
  · rw [← hu.config]
    exact hStage.congr ⟨rfl, rfl, rfl, rfl, rfl, rfl, rfl, rfl, fun _ => rfl⟩
  · have hBefore : callsLeft t (rest t.config.softs j k).length =
        (rest t.config.softs j k).length * (readaptCalls t.codecs.length + t.config.waits) +
          (t.config.waits - t.nwaitings % t.config.waits) := by
      simp only [callsLeft, hState]
    have hMod := Nat.mod_lt t.nwaitings hWaits
    have hAfter : callsLeft { t' with stepSize := n } (rest t.config.softs j k).length =
        callsLeft t' (rest t.config.softs j k).length := rfl
    rw [hBefore, hAfter]
    rw [hu.config, hu.codecs] at hCalls
    rcases hCalls with ⟨rfl, hEarly⟩ | hCalls
    · rw [hCount] at hEarly
      simp only [callsLeft, hWaiting, hu.config, hu.codecs, hCount, succ_mod_of_not_dvd hWaits hEarly]
      split <;> omega
    · split <;> omega

/-- One chunk of a readapt or of a wait. -/
theorem updateAux_moved {u : Tuner} {todo : List ReadaptType} (hCodecs : t.codecs ≠ [])
    (hMode : t.config.behaviour.repeatMode = .stop) (hHards : t.nhards + 1 < 2 ^ 31)
    (hSofts : t.nsofts + 1 < 2 ^ 31) (h : Stage t todo) (hState : t.state ≠ .stop)
    (hu : Counted t u) (ctx : Context) (improved : Bool) :
    ∃ t', updateAux ctx u improved = .ok t' ∧ Moved t t' todo improved := by
  by_cases hLevel : t.state = .clevel
  · exact clevel_moved hCodecs hMode hHards hSofts h hLevel hu ctx improved
  cases h with
  | hard k hFrom hIndex hWaits hPlace =>
    obtain ⟨hFilter, hIndex⟩ := hIndex.resolve_right hLevel
    exact codecFilter_moved hFrom hFilter hIndex hWaits hPlace hu ctx improved
  | soft j k _ hClevel => exact absurd hClevel hLevel
  | lone j _ hClevel => exact absurd hClevel hLevel
  | wait j k hFrom hWaiting hAux hWaits hPlace hStarted hj =>
    exact wait_moved hCodecs hFrom hWaiting hAux hWaits hPlace hStarted hj hu ctx improved
  | ended hStop => exact absurd hStop hState

end

end IronArray.Btune
