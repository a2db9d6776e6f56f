import IronArray.Btune.Run
import Mathlib.Tactic.GCongr
import Mathlib.Tactic.NormNum

/-!
# The tuner never cycles

A replacement may give up some ratio for a better score, or some score for a better ratio. Each pair
of thresholds in `has_improved` still gains in one product of powers of the two, the `potential`. So
no kept parameters are followed by others that are no better in both.
-/

namespace IronArray.Btune

/-! ## The potential -/

/-- The exponents are such that every pair of thresholds of the mode gains. -/
def potential (mode : CompMode) (score cratio : ℚ) : ℚ :=
  match mode with
  | .hsp => cratio ^ 3 / score ^ 5
  | .balanced => cratio ^ 3 / score
  | .hcr => cratio

theorem one_lt_pow_mul_pow {a b x y : ℚ} {p q : Nat} (ha : 0 < a) (hb : 0 < b) (hx : a < x)
    (hy : b < y) (hp : p ≠ 0) (h : 1 ≤ a ^ p * b ^ q) : 1 < x ^ p * y ^ q := by
  calc 1 ≤ a ^ p * b ^ q := h
    _ < x ^ p * b ^ q := mul_lt_mul_of_pos_right (pow_lt_pow_left₀ hx ha.le hp) (pow_pos hb q)
    _ ≤ x ^ p * y ^ q :=
      mul_le_mul_of_nonneg_left (pow_le_pow_left₀ hb.le hy.le q) (pow_pos (ha.trans hx) p).le

/-- Each threshold pair of `has_improved` gains. -/
theorem gain_of_hasImproved {config : Config} {x y : ℚ} (h : hasImproved config y x = true) :
    match config.compMode with
    | .hsp => 1 < x ^ 3 * y ^ 5
    | .balanced => 1 < x ^ 3 * y ^ 1
    | .hcr => 1 < x := by
  unfold hasImproved at h
  cases hMode : config.compMode with
  | hsp =>
    simp only [hMode, Bool.or_eq_true, decide_eq_true_eq] at h ⊢
    rcases h with ((⟨hx, hy⟩ | ⟨hx, hy⟩) | ⟨hx, hy⟩) | ⟨hx, hy⟩
    all_goals
      apply one_lt_pow_mul_pow _ _ hx hy (by decide)
      all_goals norm_num
  | balanced =>
    simp only [hMode, Bool.or_eq_true, decide_eq_true_eq] at h ⊢
    rcases h with (⟨hx, hy⟩ | ⟨hx, hy⟩) | ⟨hx, hy⟩
    all_goals
      apply one_lt_pow_mul_pow _ _ hx hy (by decide)
      all_goals norm_num
  | hcr => simpa [hMode] using h

theorem potential_lt {config : Config} {score cratio score' cratio' : ℚ} (hScore : 0 < score)
    (hCratio : 0 < cratio) (hScore' : 0 < score')
    (h : hasImproved config (score / score') (cratio' / cratio) = true) :
    potential config.compMode score cratio < potential config.compMode score' cratio' := by
  have hGain := gain_of_hasImproved h
  cases hMode : config.compMode with
  | hsp =>
    simp only [hMode] at hGain
    rw [div_pow, div_pow, div_mul_div_comm, one_lt_div (by positivity)] at hGain
    rw [potential, potential, div_lt_div_iff₀ (by positivity) (by positivity)]
    exact hGain
  | balanced =>
    simp only [hMode] at hGain
    rw [div_pow, div_pow, div_mul_div_comm, one_lt_div (by positivity)] at hGain
    rw [potential, potential, div_lt_div_iff₀ (by positivity) (by positivity)]
    simpa using hGain
  | hcr =>
    simp only [hMode] at hGain
    exact (one_lt_div hCratio).mp hGain

/-- Parameters that are no better in both have no larger potential. -/
theorem potential_le {mode : CompMode} {score cratio score' cratio' : ℚ} (hScore : 0 < score)
    (hCratio' : 0 < cratio') (h : score ≤ score') (h' : cratio' ≤ cratio) :
    potential mode score' cratio' ≤ potential mode score cratio := by
  have hCratio := hCratio'.trans_le h'
  cases mode with
  | hsp | balanced =>
    simp only [potential]
    gcongr
  | hcr => exact h'

/-! ## What a chunk changes -/

/-- The states that occur: threads, shuffle sizes, blocks and `memcpy` are switched off. -/
def State.Used : State → Prop
  | .codecFilter | .clevel | .waiting | .stop => True
  | _ => False

/-- What the verdicts of a run rely on. -/
structure Steady (t : Tuner) : Prop where
  score : 0 < t.best.score
  cratio : 0 < t.best.cratio
  currentScores : t.currentScores.length = repeatsPerCparams
  currentCratios : t.currentCratios.length = repeatsPerCparams
  repIndex : t.repIndex = 0
  state : t.state.Used

/-- What the measurements of a run need of the tuner before they are judged. -/
structure Regular (t : Tuner) : Prop where
  currentScores : t.currentScores.length = repeatsPerCparams
  currentCratios : t.currentCratios.length = repeatsPerCparams
  repIndex : t.repIndex = 0
  state : t.state.Used

theorem Steady.regular {t : Tuner} (h : Steady t) : Regular t :=
  ⟨h.currentScores, h.currentCratios, h.repIndex, h.state⟩

/-- Parameters without the directions in which they are tuned. -/
def Cparams.undirected (c : Cparams) : Cparams :=
  { c with
    increasingClevel := false, increasingBlock := false, increasingShuffle := false
    increasingNthreads := false }

/-- Where the parts of `update_aux` may lead: the directions and the states change, the best
parameters and their measurements do not. -/
structure Keeps (t t' : Tuner) : Prop where
  config : t'.config = t.config
  codecs : t'.codecs = t.codecs
  filterSplitLimit : t'.filterSplitLimit = t.filterSplitLimit
  best : t'.best.undirected = t.best.undirected
  currentScores : t'.currentScores = t.currentScores
  currentCratios : t'.currentCratios = t.currentCratios
  repIndex : t'.repIndex = t.repIndex
  stepsCount : t'.stepsCount = t.stepsCount

namespace Keeps

variable {t u v : Tuner}

theorem refl (t : Tuner) : Keeps t t := ⟨rfl, rfl, rfl, rfl, rfl, rfl, rfl, rfl⟩

theorem trans (h : Keeps t u) (h' : Keeps u v) : Keeps t v where
  config := h'.config.trans h.config
  codecs := h'.codecs.trans h.codecs
  filterSplitLimit := h'.filterSplitLimit.trans h.filterSplitLimit
  best := h'.best.trans h.best
  currentScores := h'.currentScores.trans h.currentScores
  currentCratios := h'.currentCratios.trans h.currentCratios
  repIndex := h'.repIndex.trans h.repIndex
  stepsCount := h'.stepsCount.trans h.stepsCount

theorem score (h : Keeps t u) : u.best.score = t.best.score := by
  show u.best.undirected.score = t.best.undirected.score
  rw [h.best]

theorem cratio (h : Keeps t u) : u.best.cratio = t.best.cratio := by
  show u.best.undirected.cratio = t.best.undirected.cratio
  rw [h.best]

theorem regular (h : Keeps t u) (hRegular : Regular t) (hState : u.state.Used) : Regular u where
  currentScores := h.currentScores ▸ hRegular.currentScores
  currentCratios := h.currentCratios ▸ hRegular.currentCratios
  repIndex := h.repIndex ▸ hRegular.repIndex
  state := hState

theorem steady (h : Keeps t u) (hSteady : Steady t) (hState : u.state.Used) : Steady u where
  score := h.score ▸ hSteady.score
  cratio := h.cratio ▸ hSteady.cratio
  currentScores := h.currentScores ▸ hSteady.currentScores
  currentCratios := h.currentCratios ▸ hSteady.currentCratios
  repIndex := h.repIndex ▸ hSteady.repIndex
  state := hState

end Keeps

theorem initSoft_keeps (t : Tuner) : Keeps t (initSoft t) := by
  unfold initSoft
  split <;> exact ⟨rfl, rfl, rfl, rfl, rfl, rfl, rfl, rfl⟩

theorem initHard_keeps (t : Tuner) : Keeps t (initHard t) := by
  obtain ⟨b, hEq⟩ := initHard_eq t
  rw [hEq]
  exact ⟨rfl, rfl, rfl, rfl, rfl, rfl, rfl, rfl⟩

theorem initHard_used (t : Tuner) : (initHard t).state.Used := by
  obtain ⟨b, hEq⟩ := initHard_eq t
  rw [hEq]
  trivial

theorem waitingAfterHard_keeps {t t' : Tuner} (h : waitingAfterHard t = .ok t') :
    Keeps t t' ∧ t'.state.Used := by
  obtain ⟨n, _, h⟩ := bind_eq_ok.mp h
  obtain ⟨_, _, h⟩ := bind_eq_ok.mp h
  obtain ⟨last, _, h⟩ := bind_eq_ok.mp h
  have hNext : Keeps t { t with nhards := n } := ⟨rfl, rfl, rfl, rfl, rfl, rfl, rfl, rfl⟩
  have hRepeating : Keeps t { t with nhards := n, isRepeating := true } :=
    ⟨rfl, rfl, rfl, rfl, rfl, rfl, rfl, rfl⟩
  dsimp only at h
  split_ifs at h <;> cases h
  · exact ⟨hRepeating.trans (initSoft_keeps _), trivial⟩
  · exact ⟨⟨rfl, rfl, rfl, rfl, rfl, rfl, rfl, rfl⟩, trivial⟩
  · exact ⟨⟨rfl, rfl, rfl, rfl, rfl, rfl, rfl, rfl⟩, trivial⟩
  · exact ⟨hRepeating.trans (initHard_keeps _), initHard_used _⟩
  · exact ⟨⟨rfl, rfl, rfl, rfl, rfl, rfl, rfl, rfl⟩, trivial⟩
  · exact ⟨hNext.trans (initSoft_keeps _), trivial⟩
  · exact ⟨⟨rfl, rfl, rfl, rfl, rfl, rfl, rfl, rfl⟩, trivial⟩
  · exact ⟨hNext.trans (initHard_keeps _), initHard_used _⟩

theorem waitingAfterSoft_keeps {t t' : Tuner} (hState : t.state.Used)
    (h : waitingAfterSoft t = .ok t') : Keeps t t' ∧ t'.state.Used := by
  obtain ⟨n, _, h⟩ := bind_eq_ok.mp h
  obtain ⟨_, _, h⟩ := bind_eq_ok.mp h
  have hNext : Keeps t { t with nsofts := n, readaptFrom := .wait } :=
    ⟨rfl, rfl, rfl, rfl, rfl, rfl, rfl, rfl⟩
  dsimp only at h
  split at h
  · obtain ⟨last, _, h⟩ := bind_eq_ok.mp h
    split at h
    · cases h
      exact ⟨hNext.trans (initHard_keeps _), initHard_used _⟩
    obtain ⟨lastSoft, _, h⟩ := bind_eq_ok.mp h
    split at h <;> cases h
    · exact ⟨⟨rfl, rfl, rfl, rfl, rfl, rfl, rfl, rfl⟩, trivial⟩
    · exact ⟨hNext.trans (initSoft_keeps _), trivial⟩
  · cases h
    exact ⟨hNext, hState⟩

theorem waitingAfterWait_keeps {t t' : Tuner} (hState : t.state.Used)
    (h : waitingAfterWait t = .ok t') : Keeps t t' ∧ t'.state.Used := by
  obtain ⟨lastWait, _, h⟩ := bind_eq_ok.mp h
  split at h
  · obtain ⟨last, _, h⟩ := bind_eq_ok.mp h
    split_ifs at h <;> cases h
    · exact ⟨initHard_keeps t, initHard_used t⟩
    · exact ⟨initSoft_keeps t, trivial⟩
    · exact ⟨.refl t, hState⟩
  · cases h
    exact ⟨.refl t, hState⟩

theorem processWaitingState_keeps {t t' : Tuner} (hState : t.state.Used)
    (h : processWaitingState t = .ok t') : Keeps t t' ∧ t'.state.Used := by
  obtain ⟨u, hLeave, h⟩ := bind_eq_ok.mp h
  have hSwitch : Keeps t u ∧ u.state.Used := by
    unfold leaveWaiting at hLeave
    cases hFrom : t.readaptFrom with
    | hard => exact waitingAfterHard_keeps (by simpa only [hFrom] using hLeave)
    | soft => exact waitingAfterSoft_keeps hState (by simpa only [hFrom] using hLeave)
    | wait => exact waitingAfterWait_keeps hState (by simpa only [hFrom] using hLeave)
  cases h
  split
  · exact ⟨hSwitch.1.trans ⟨rfl, rfl, rfl, rfl, rfl, rfl, rfl, rfl⟩, hSwitch.2⟩
  · exact hSwitch

theorem nextState_keeps {t : Tuner} (hState : t.state.Used) (ctx : Context) (improved : Bool) :
    Keeps t (nextState ctx t improved) ∧ (nextState ctx t improved).state.Used := by
  cases h : t.state with
  | codecFilter =>
    simp only [nextState, h, updateCodecFilter_eq]
    split
    · exact ⟨⟨rfl, rfl, rfl, rfl, rfl, rfl, rfl, rfl⟩, trivial⟩
    · exact ⟨.refl t, hState⟩
  | clevel =>
    simp only [nextState, h]
    obtain ⟨x, y, hEq | hEq⟩ := updateClevel_cases ctx t improved
    · rw [hEq]
      exact ⟨⟨rfl, rfl, rfl, rfl, rfl, rfl, rfl, rfl⟩, hState⟩
    · rw [hEq]
      exact ⟨⟨rfl, rfl, rfl, rfl, rfl, rfl, rfl, rfl⟩, trivial⟩
  | waiting | stop =>
    simp only [nextState, h]
    exact ⟨.refl t, trivial⟩
  | shuffleSize | threads | blocksize | memcpy => simp [h, State.Used] at hState

theorem updateAux_keeps {t t' : Tuner} (hState : t.state.Used) {ctx : Context} {improved : Bool}
    (h : updateAux ctx t improved = .ok t') : Keeps t t' ∧ t'.state.Used := by
  obtain ⟨hKeeps, hUsed⟩ := nextState_keeps hState ctx improved
  unfold updateAux at h
  dsimp only at h
  split at h
  · obtain ⟨hKeeps', hUsed'⟩ := processWaitingState_keeps hUsed h
    exact ⟨hKeeps.trans hKeeps', hUsed'⟩
  · cases h
    exact ⟨hKeeps, hUsed⟩

/-- What `iabtune_next_cparams` counts. -/
def Tuner.counted (t : Tuner) : Tuner :=
  match t.state with
  | .waiting => { t with nwaitings := t.nwaitings + 1 }
  | .stop => t
  | _ => { t with auxIndex := t.auxIndex + 1 }

theorem increment_eq_ok {n k : Nat} (h : increment n = .ok k) : k = n + 1 := by
  unfold increment at h
  split at h <;> cases h
  rfl

theorem setBtuneCparams_eq (s : System) (c : Cparams) :
    ∃ aux dctx nthreads, (setBtuneCparams s c).btune = { s.btune with
        auxCparams := aux, dctx := dctx, nthreadsDecomp := nthreads } ∧
      (setBtuneCparams s c).cctx.sourcesize = s.cctx.sourcesize := by
  unfold setBtuneCparams
  cases s.btune.dctx with
  | none => exact ⟨_, _, _, rfl, rfl⟩
  | some d => exact ⟨_, _, _, rfl, rfl⟩

/-- Choosing parameters counts the call; otherwise only the parameters to try change. -/
theorem iabtuneNextCparams_eq_ok {s s' : System} (h : iabtuneNextCparams s = .ok s') :
    ∃ aux dctx nthreads, s'.btune = { s.btune.counted with
        auxCparams := aux, dctx := dctx, nthreadsDecomp := nthreads } ∧
      s'.cctx.sourcesize = s.cctx.sourcesize := by
  unfold iabtuneNextCparams at h
  dsimp only at h
  unfold Tuner.counted
  cases hState : s.btune.state with
  | codecFilter =>
    simp only [hState] at h ⊢
    obtain ⟨c, _, h⟩ := bind_eq_ok.mp h
    obtain ⟨n, hCount, h⟩ := bind_eq_ok.mp h
    cases h
    rw [increment_eq_ok hCount, ← hState]
    exact setBtuneCparams_eq _ _
  | shuffleSize | threads | clevel | blocksize | memcpy | waiting =>
    simp only [hState] at h ⊢
    obtain ⟨n, hCount, h⟩ := bind_eq_ok.mp h
    cases h
    rw [increment_eq_ok hCount, ← hState]
    exact setBtuneCparams_eq _ _
  | stop =>
    simp only [hState] at h ⊢
    cases h
    rw [← hState]
    exact setBtuneCparams_eq _ _

/-! ## Verdicts -/

/-- What `iabtune_update` decides about the parameters that were tried for a chunk. -/
def judge (B : Blosc) (s : System) (ctime : ℚ) : Tuned Bool := do
  if s.btune.state = .stop then pure false
  else
    let score ← scoreFunction s.btune.config ctime s.cctx.destsize 0
    let cratio ← divide s.cctx.sourcesize s.cctx.destsize
    improvedBy B s score cratio ctime 0

/-- The tuner when `update_aux` is called. -/
def Tuner.judged (t : Tuner) (score cratio ctime : ℚ) (improved : Bool) : Tuner :=
  { t with
    stepsCount := t.stepsCount + 1
    auxCparams := t.auxCparams.measured score cratio ctime 0
    best := if improved then t.auxCparams.measured score cratio ctime 0 else t.best
    currentScores := t.currentScores.set 0 score
    currentCratios := t.currentCratios.set 0 cratio
    repIndex := 0 }

theorem store_eq_ok {xs ys : List ℚ} {i : Nat} {x : ℚ} (h : store xs i x = .ok ys) :
    ys = xs.set i x := by
  unfold store at h
  split at h <;> cases h
  rfl

theorem assertThat_eq_ok {p : Prop} [Decidable p] {u : Unit} (h : assertThat p = .ok u) : p := by
  unfold assertThat at h
  split at h
  · assumption
  · cases h

/-- An update that is not a stop judges the measurement and moves on. -/
theorem iabtuneUpdate_eq_ok {B : Blosc} {s s' : System} {ctime : ℚ} (hs : Regular s.btune)
    (hState : s.btune.state ≠ .stop) (h : iabtuneUpdate B s ctime = .ok s') :
    ∃ score cratio improved, 0 < score ∧ divide s.cctx.sourcesize s.cctx.destsize = .ok cratio ∧
      judge B s ctime = .ok improved ∧ improvedBy B s score cratio ctime 0 = .ok improved ∧
      updateAux s.cctx (s.btune.judged score cratio ctime improved) improved = .ok s'.btune ∧
      s'.cctx = s.cctx := by
  unfold iabtuneUpdate at h
  dsimp only at h
  rw [if_neg hState] at h
  obtain ⟨steps, hSteps, h⟩ := bind_eq_ok.mp h
  obtain ⟨score, hScore, h⟩ := bind_eq_ok.mp h
  obtain ⟨_, hPos, h⟩ := bind_eq_ok.mp h
  obtain ⟨cratio, hCratio, h⟩ := bind_eq_ok.mp h
  obtain ⟨scores, hScores, h⟩ := bind_eq_ok.mp h
  obtain ⟨cratios, hCratios, h⟩ := bind_eq_ok.mp h
  obtain ⟨rep, hRep, h⟩ := bind_eq_ok.mp h
  have hPos := assertThat_eq_ok hPos
  have hSteps := increment_eq_ok hSteps
  have hScores := store_eq_ok hScores
  have hCratios := store_eq_ok hCratios
  have hRep := increment_eq_ok hRep
  rw [hs.repIndex] at hScores hCratios hRep
  subst hSteps hScores hCratios hRep
  rw [if_pos (by decide)] at h
  simp only [mean_set hs.currentScores, mean_set hs.currentCratios, ok_bind] at h
  obtain ⟨improved, hImproved, h⟩ := bind_eq_ok.mp h
  obtain ⟨t', hAux, h⟩ := bind_eq_ok.mp h
  cases h
  have hSame : improvedBy B s score cratio ctime 0 = .ok improved := hImproved
  refine ⟨score, cratio, improved, hPos, hCratio, ?_, hSame, ?_, rfl⟩
  · rw [judge, if_neg hState, hScore, ok_bind, hCratio, ok_bind, hSame]
  · rw [← hAux, Tuner.judged]
    cases improved <;> rfl

/-- Parameters that replace the best ones have passed a pair of thresholds. -/
theorem hasImproved_of_improvedBy {B : Blosc} {s : System} {score cratio ctime dtime : ℚ}
    (hState : s.btune.state ≠ .threads)
    (h : improvedBy B s score cratio ctime dtime = .ok true) :
    hasImproved s.btune.config (s.btune.best.score / score) (cratio / s.btune.best.cratio) =
      true := by
  obtain ⟨x, hx, h⟩ := bind_eq_ok.mp h
  obtain ⟨y, hy, h⟩ := bind_eq_ok.mp h
  unfold divide at hx hy
  split at hx <;> cases hx
  split at hy <;> cases hy
  rw [if_neg hState] at h
  exact (Bool.and_eq_true_iff.mp (Except.ok.inj h)).1

def Tuner.potential (t : Tuner) : ℚ :=
  Btune.potential t.config.compMode t.best.score t.best.cratio

/-- The verdict on the parameters that are tried for a chunk. -/
def verdict (B : Blosc) (s : System) (m : Measure) : Tuned Bool := do
  let s ← iabtuneNextCparams { s with cctx := { s.cctx with sourcesize := m.sourcesize } }
  judge B { s with cctx := { s.cctx with destsize := m.destsize } } m.ctime

theorem counted_keeps (t : Tuner) : Keeps t t.counted := by
  unfold Tuner.counted
  split <;> exact ⟨rfl, rfl, rfl, rfl, rfl, rfl, rfl, rfl⟩

theorem counted_state (t : Tuner) : t.counted.state = t.state := by
  unfold Tuner.counted
  split <;> rfl

/-- Choosing parameters changes neither the best ones nor the state. -/
theorem iabtuneNextCparams_keeps {s s' : System} (h : iabtuneNextCparams s = .ok s') :
    Keeps s.btune s'.btune ∧ s'.btune.state = s.btune.state := by
  obtain ⟨aux, dctx, nthreads, hTuner, _⟩ := iabtuneNextCparams_eq_ok h
  constructor
  · rw [hTuner]
    exact (counted_keeps s.btune).trans ⟨rfl, rfl, rfl, rfl, rfl, rfl, rfl, rfl⟩
  · rw [hTuner]
    exact counted_state s.btune

/-- One chunk: the potential grows with a replacement, and otherwise the measurements stay. -/
theorem compressChunk_potential {B : Blosc} {s s' : System} {m : Measure} (hs : Steady s.btune)
    (hm : m.Positive) (h : compressChunk B s m = .ok s') :
    Steady s'.btune ∧ s'.btune.config = s.btune.config ∧
      s.btune.potential ≤ s'.btune.potential ∧
      (verdict B s m = .ok true → s.btune.potential < s'.btune.potential) := by
  obtain ⟨s₁, hNext, hUpdate⟩ := bind_eq_ok.mp h
  obtain ⟨_, _, _, _, hSource⟩ := iabtuneNextCparams_eq_ok hNext
  obtain ⟨hKeeps, hSameState⟩ := iabtuneNextCparams_keeps hNext
  have hSteady : Steady s₁.btune := hKeeps.steady hs (hSameState ▸ hs.state)
  have hVerdict : verdict B s m = judge B
      { s₁ with cctx := { s₁.cctx with destsize := m.destsize } } m.ctime := by
    rw [verdict, hNext, ok_bind]
  have hPotential : s₁.btune.potential = s.btune.potential := by
    rw [Tuner.potential, Tuner.potential, hKeeps.config, hKeeps.score, hKeeps.cratio]
  by_cases hStop : s₁.btune.state = .stop
  · have hSame : iabtuneUpdate B { s₁ with cctx := { s₁.cctx with destsize := m.destsize } }
        m.ctime = .ok { s₁ with cctx := { s₁.cctx with destsize := m.destsize } } := by
      rw [iabtuneUpdate, if_pos hStop]
      rfl
    have hFalse : verdict B s m = .ok false := by
      rw [hVerdict, judge, if_pos hStop]
      rfl
    rw [hSame, Except.ok.injEq] at hUpdate
    subst hUpdate
    refine ⟨hSteady, hKeeps.config, hPotential.ge, fun hTrue => ?_⟩
    rw [hFalse] at hTrue
    cases hTrue
  · obtain ⟨score, cratio, improved, hScore, hCratio, hJudge, hImproved, hAux, _⟩ :=
      iabtuneUpdate_eq_ok (s := ⟨{ s₁.cctx with destsize := m.destsize }, s₁.btune⟩)
        hSteady.regular hStop hUpdate
    have hCratioPos : 0 < cratio := by
      unfold divide at hCratio
      split at hCratio <;> cases hCratio
      have hSourcePos := hm.sourcesize
      have hDestPos := hm.destsize
      dsimp only
      rw [hSource]
      positivity
    have hJudgedState : (s₁.btune.judged score cratio m.ctime improved).state.Used := hSteady.state
    obtain ⟨hMoved, hUsed⟩ := updateAux_keeps hJudgedState hAux
    have hJudged : Steady (s₁.btune.judged score cratio m.ctime improved) :=
      { score := by
          cases improved
          · exact hSteady.score
          · exact hScore
        cratio := by
          cases improved
          · exact hSteady.cratio
          · exact hCratioPos
        currentScores := (List.length_set).trans hSteady.currentScores
        currentCratios := (List.length_set).trans hSteady.currentCratios
        repIndex := rfl
        state := hSteady.state }
    have hEnd : s'.btune.potential = (s₁.btune.judged score cratio m.ctime improved).potential := by
      rw [Tuner.potential, Tuner.potential, hMoved.config, hMoved.score, hMoved.cratio]
    have hThreads : s₁.btune.state ≠ .threads := by
      intro hThreads
      have hUsed := hSteady.state
      rw [hThreads] at hUsed
      exact hUsed
    have hGrows : improved = true → s₁.btune.potential < s'.btune.potential := by
      rintro rfl
      rw [hEnd]
      have hPassed := hasImproved_of_improvedBy
        (s := ⟨{ s₁.cctx with destsize := m.destsize }, s₁.btune⟩) hThreads hImproved
      exact potential_lt hSteady.score hSteady.cratio hScore hPassed
    refine ⟨hMoved.steady hJudged hUsed, hMoved.config.trans hKeeps.config, ?_, fun hTrue => ?_⟩
    · rw [← hPotential]
      cases improved with
      | true => exact (hGrows rfl).le
      | false => exact hEnd.ge
    · rw [hVerdict, hJudge, Except.ok.injEq] at hTrue
      exact hPotential ▸ hGrows hTrue

/-! ## Runs -/

theorem compressChunks_potential {B : Blosc} {s s' : System} {ms : List Measure}
    (hs : Steady s.btune) (hms : ∀ m ∈ ms, m.Positive)
    (h : ms.foldlM (compressChunk B) s = .ok s') :
    Steady s'.btune ∧ s'.btune.config = s.btune.config ∧
      s.btune.potential ≤ s'.btune.potential := by
  induction ms generalizing s with
  | nil =>
    cases h
    exact ⟨hs, rfl, le_rfl⟩
  | cons m ms ih =>
    rw [List.foldlM_cons] at h
    obtain ⟨s₁, hChunk, h⟩ := bind_eq_ok.mp h
    obtain ⟨h₁, hConfig, hLe, _⟩ := compressChunk_potential hs (hms m List.mem_cons_self) hChunk
    obtain ⟨h', hConfig', hLe'⟩ := ih h₁ (fun x hx => hms x (List.mem_cons_of_mem _ hx)) h
    exact ⟨h', hConfig'.trans hConfig, hLe.trans hLe'⟩

theorem initWithoutHards_keeps (t : Tuner) :
    Keeps t (initWithoutHards t) ∧ (initWithoutHards t).state.Used := by
  have hStop : Keeps t { t with state := .stop, readaptFrom := .wait } :=
    ⟨rfl, rfl, rfl, rfl, rfl, rfl, rfl, rfl⟩
  have hRepeat : ∀ {u : Tuner}, Keeps t u → Keeps t { u with isRepeating := true } := fun h =>
    h.trans ⟨rfl, rfl, rfl, rfl, rfl, rfl, rfl, rfl⟩
  unfold initWithoutHards
  dsimp only
  split
  · split_ifs
    · exact ⟨hRepeat (initHard_keeps t), initHard_used t⟩
    · exact ⟨hRepeat (initSoft_keeps t), trivial⟩
    · exact ⟨hRepeat (initSoft_keeps t), trivial⟩
    · exact ⟨hRepeat hStop, trivial⟩
  · split_ifs
    · exact ⟨hRepeat (initSoft_keeps t), trivial⟩
    · exact ⟨hRepeat (initSoft_keeps t), trivial⟩
    · exact ⟨hRepeat hStop, trivial⟩
  · split_ifs
    · exact ⟨hRepeat (initSoft_keeps t), trivial⟩
    · exact ⟨hRepeat hStop, trivial⟩

theorem iabtuneInit_steady {B : Blosc} {config : Option Config} {cctx : Context}
    {dctx : Option Context} {s : System} (h : iabtuneInit B config cctx dctx = .ok s) :
    Steady s.btune := by
  unfold iabtuneInit at h
  cases config with
  | none => cases h
  | some config =>
    obtain ⟨compcode, _, h⟩ := bind_eq_ok.mp h
    cases h
    have hScore : 0 < (startCparams config compcode cctx dctx).score := by
      norm_num [startCparams, cparamsDefault]
    have hCratio : 0 < (startCparams config compcode cctx dctx).cratio := by
      norm_num [startCparams, cparamsDefault]
    have hStep : ∀ {t : Tuner} (k : Nat), Steady t → Steady { t with stepSize := k } :=
      fun _ h => { h with }
    apply hStep
    dsimp only
    split_ifs
    · exact (initSoft_keeps _).steady ⟨hScore, hCratio, rfl, rfl, rfl, trivial⟩ trivial
    · exact ⟨hScore, hCratio, rfl, rfl, rfl, trivial⟩
    · exact (initHard_keeps _).steady ⟨hScore, hCratio, rfl, rfl, rfl, trivial⟩ (initHard_used _)
    · exact (initWithoutHards_keeps _).1.steady ⟨hScore, hCratio, rfl, rfl, rfl, trivial⟩
        (initWithoutHards_keeps _).2
    · have hHard := (initHard_keeps (startTuner config (btuneGetCodecs B config)
        (startCparams config compcode cctx dctx) cctx dctx)).steady
        ⟨hScore, hCratio, rfl, rfl, rfl, trivial⟩ (initHard_used _)
      exact { hHard with }

/-- Between two moments of a run with a replacement between them, the best parameters do not come
back to a score and a ratio that are both no better. -/
theorem best_never_returns {B : Blosc} {config : Option Config} {cctx : Context}
    {dctx : Option Context} {ms₀ ms₁ ms₂ : List Measure} {m : Measure} {sᵢ s sⱼ : System}
    (hms : ∀ x ∈ ms₀ ++ ms₁ ++ m :: ms₂, x.Positive) (hi : run B config cctx dctx ms₀ = .ok sᵢ)
    (hs : ms₁.foldlM (compressChunk B) sᵢ = .ok s) (hReplaced : verdict B s m = .ok true)
    (hj : (m :: ms₂).foldlM (compressChunk B) s = .ok sⱼ) :
    ¬ (sᵢ.btune.best.score ≤ sⱼ.btune.best.score ∧
      sⱼ.btune.best.cratio ≤ sᵢ.btune.best.cratio) := by
  obtain ⟨s₀, hInit, hi⟩ := bind_eq_ok.mp hi
  obtain ⟨hSteady, hConfig, _⟩ := compressChunks_potential (iabtuneInit_steady hInit)
    (fun x hx => hms x (by simp [hx])) hi
  obtain ⟨hSteady₁, hConfig₁, hLe₁⟩ := compressChunks_potential hSteady
    (fun x hx => hms x (by simp [hx])) hs
  rw [List.foldlM_cons] at hj
  obtain ⟨s₁, hChunk, hj⟩ := bind_eq_ok.mp hj
  obtain ⟨hSteady₂, hConfig₂, _, hLt⟩ := compressChunk_potential hSteady₁
    (hms m (by simp)) hChunk
  obtain ⟨hSteady₃, hConfig₃, hLe₃⟩ := compressChunks_potential hSteady₂
    (fun x hx => hms x (by simp [hx])) hj
  have hGrown : sᵢ.btune.potential < sⱼ.btune.potential :=
    hLe₁.trans_lt ((hLt hReplaced).trans_le hLe₃)
  rintro ⟨hScore, hCratio⟩
  have hBack := @potential_le sᵢ.btune.config.compMode _ _ _ _ hSteady.score hSteady₃.cratio hScore
    hCratio
  rw [Tuner.potential, Tuner.potential, hConfig₃, hConfig₂, hConfig₁] at hGrown
  exact absurd hBack (not_le.mpr hGrown)

/-- A first chunk that is compressed to a quarter replaces the parameters the tuner starts with. -/
theorem best_never_returns_sample :
    ∃ s s', run ⟨true, true, 32⟩ (some (sampleConfig 1024)) sampleContext none [] = .ok s ∧
      verdict ⟨true, true, 32⟩ s ⟨32768, 8192, 1⟩ = .ok true ∧
      [⟨32768, 8192, 1⟩].foldlM (compressChunk ⟨true, true, 32⟩) s = .ok s' ∧
      ¬ (s.btune.best.score ≤ s'.btune.best.score ∧
        s'.btune.best.cratio ≤ s.btune.best.cratio) := by
  have hPositive : ∀ x ∈ ([] ++ [] ++ [⟨32768, 8192, 1⟩] : List Measure), x.Positive := by
    intro x hx
    obtain rfl : x = ⟨32768, 8192, 1⟩ := by simpa using hx
    exact ⟨by decide, by decide, by norm_num⟩
  obtain ⟨s, hs⟩ : ∃ s, run ⟨true, true, 32⟩ (some (sampleConfig 1024)) sampleContext none [] =
      .ok s := ⟨_, rfl⟩
  have hVerdict : (run ⟨true, true, 32⟩ (some (sampleConfig 1024)) sampleContext none [] >>=
      fun s => verdict ⟨true, true, 32⟩ s ⟨32768, 8192, 1⟩) = .ok true := by decide +kernel
  have hChunk : ((run ⟨true, true, 32⟩ (some (sampleConfig 1024)) sampleContext none [] >>=
      fun s => [⟨32768, 8192, 1⟩].foldlM (compressChunk ⟨true, true, 32⟩) s).map
      fun s => s.btune.best.cratio) = .ok 4 := by decide +kernel
  rw [hs, ok_bind] at hVerdict hChunk
  cases hj : [⟨32768, 8192, 1⟩].foldlM (compressChunk ⟨true, true, 32⟩) s with
  | error e =>
    rw [hj] at hChunk
    cases hChunk
  | ok s' => exact ⟨s, s', hs, hVerdict, hj, best_never_returns hPositive hs rfl hVerdict hj⟩

end IronArray.Btune
