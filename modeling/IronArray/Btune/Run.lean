import IronArray.Btune.Safety
import Mathlib.Tactic.Positivity

/-!
# Runs of the tuner

One chunk takes a sound tuner to a sound tuner; the induction on the chunks gives the ranges in
every state of a run, for every configuration with a bandwidth.
-/

namespace IronArray.Btune

variable {o : Origin} {n : Nat} {s : System}

/-! ## One chunk -/

/-- What holds before each chunk. The context has legal parameters once one was compressed. -/
structure Between (o : Origin) (n : Nat) (s : System) : Prop where
  sound : Sound o n s.btune
  ready : Ready o s.btune
  blocksize : s.cctx.blocksize = o.cctx.blocksize
  nthreads : s.cctx.nthreads = o.cctx.nthreads
  context : 0 < n → LegalContext o s.cctx

theorem iabtuneNextCparams_ok (h : Between o n s) (hSource : 0 < s.cctx.sourcesize)
    (hn : n + 1 < 2 ^ 31) :
    ∃ s', iabtuneNextCparams s = .ok s' ∧ Prepared o n s' ∧ s'.btune.state = s.btune.state := by
  obtain ⟨ctx, t⟩ := s
  have hSound := h.sound
  have hReady := h.ready
  have hAux : increment t.auxIndex = .ok (t.auxIndex + 1) :=
    increment_ok (by have := hSound.auxIndex; dsimp only at this; omega)
  have hWaits : increment t.nwaitings = .ok (t.nwaitings + 1) :=
    increment_ok (by have := hSound.nwaitings; dsimp only at this; omega)
  have hStep : Sound o (n + 1) { t with auxIndex := t.auxIndex + 1 } :=
    { hSound.mono (Nat.le_succ n) with auxIndex := Nat.succ_le_succ hSound.auxIndex }
  have hWait : Sound o (n + 1) { t with nwaitings := t.nwaitings + 1 } :=
    { hSound.mono (Nat.le_succ n) with nwaitings := Nat.succ_le_succ hSound.nwaitings }
  dsimp only at hSound hReady
  unfold iabtuneNextCparams
  cases hState : t.state with
  | codecFilter =>
    have hIndex : t.auxIndex < 6 * o.codecs.length := by simpa [Ready, hState] using hReady
    obtain ⟨c, hNext, hc⟩ := nextCodecFilter_ok hSound hIndex
    have hChosen : Chosen o { t with auxIndex := t.auxIndex + 1 } := by
      simp only [Chosen, hState]
      omega
    simp only [hState, hNext, hAux, ok_bind]
    rw [← hState]
    exact ⟨_, rfl, setBtuneCparams_prepared hStep hChosen hSound.stepsCount hSound.nsofts
      hSound.nhards h.blocksize h.nthreads hSource hc,
      setBtuneCparams_state _ c⟩
  | clevel =>
    have hChosen : Chosen o { t with auxIndex := t.auxIndex + 1 } := by simp [Chosen, hState]
    simp only [hState, hAux, ok_bind]
    rw [← hState]
    exact ⟨_, rfl, setBtuneCparams_prepared hStep hChosen hSound.stepsCount hSound.nsofts
      hSound.nhards h.blocksize h.nthreads hSource (nextClevel_legal hSound),
      setBtuneCparams_state _ _⟩
  | waiting =>
    have hChosen : Chosen o { t with nwaitings := t.nwaitings + 1 } := by
      simpa [Chosen, Ready, hState] using hReady
    simp only [hState, hWaits, ok_bind]
    rw [← hState]
    exact ⟨_, rfl, setBtuneCparams_prepared hWait hChosen hSound.stepsCount hSound.nsofts
      hSound.nhards h.blocksize h.nthreads hSource hSound.best,
      setBtuneCparams_state _ t.best⟩
  | stop =>
    have hChosen : Chosen o t := by simp [Chosen, hState]
    simp only [hState]
    exact ⟨_, rfl, setBtuneCparams_prepared (hSound.mono (Nat.le_succ n)) hChosen
      hSound.stepsCount hSound.nsofts hSound.nhards h.blocksize h.nthreads hSource hSound.best,
      (setBtuneCparams_state _ t.best).trans hState⟩
  | shuffleSize | threads | blocksize | memcpy => simp [Ready, hState] at hReady

theorem scoreFunction_ok {config : Config} (hBandwidth : config.bandwidth ≠ 0) {ctime : ℚ}
    (hTime : 0 < ctime) {cbytes : Nat} (hBytes : 0 < cbytes) :
    ∃ score, scoreFunction config ctime cbytes 0 = .ok score ∧ 0 < score := by
  have hKb : ((kb : Nat) : ℚ) ≠ 0 := by norm_num [kb]
  have hPos : 0 < config.bandwidth.toNat :=
    Nat.pos_of_ne_zero fun h => hBandwidth (UInt32.toNat.inj h)
  have hWidth : (config.bandwidth.toNat : ℚ) ≠ 0 := by exact_mod_cast hPos.ne'
  have hTransfer : 0 < (cbytes : ℚ) / kb / config.bandwidth.toNat := by
    have : 0 < ((kb : Nat) : ℚ) := by norm_num [kb]
    positivity
  simp only [scoreFunction, divide_ok hKb, divide_ok hWidth, ok_bind]
  refine ⟨_, rfl, ?_⟩
  cases config.perfMode with
  | comp => exact add_pos hTime hTransfer
  | decomp => simpa using hTransfer
  | balanced => simpa using add_pos hTime hTransfer

theorem improvedBy_ok (B : Blosc) (hCratio : 0 < s.btune.best.cratio) {score : ℚ}
    (hScore : 0 < score) (cratio ctime dtime : ℚ) :
    ∃ b, improvedBy B s score cratio ctime dtime = .ok b := by
  simp only [improvedBy, divide_ok hCratio.ne', divide_ok hScore.ne', ok_bind]
  exact ⟨_, rfl⟩

theorem mean_set {xs : List ℚ} (h : xs.length = repeatsPerCparams) (x : ℚ) :
    mean (xs.set 0 x) = .ok x := by
  obtain ⟨y, rfl⟩ := List.length_eq_one_iff.mp h
  simp [mean, divide]

/-- A measurement: the sizes and the time are positive. -/
structure Measure.Positive (m : Measure) : Prop where
  sourcesize : 0 < m.sourcesize
  destsize : 0 < m.destsize
  ctime : 0 < m.ctime

theorem iabtuneUpdate_ok (B : Blosc) (h : Prepared o n s) (hBandwidth : o.config.bandwidth ≠ 0)
    (hHint : o.config.cparamsHint = false) (hHards : o.config.behaviour.nhardsBeforeStop ≠ 0)
    (hCodecs : o.codecs ≠ []) (hn : n + 1 < 2 ^ 31)
    (hDest : 0 < s.cctx.destsize) {ctime : ℚ} (hTime : 0 < ctime) :
    ∃ s', iabtuneUpdate B s ctime = .ok s' ∧ s'.cctx = s.cctx ∧ Restarted o (n + 1) s'.btune := by
  obtain ⟨ctx, t⟩ := s
  have hSound := h.sound
  have hChosen := h.chosen
  have hCount := h.stepsCount
  have hSource := h.sourcesize
  dsimp only at hSound hChosen hCount hSource hDest
  unfold iabtuneUpdate
  dsimp only
  split
  · rename_i hStop
    exact ⟨_, rfl, rfl, hSound, by simp [Ready, hStop]⟩
  · have hSteps : increment t.stepsCount = .ok (t.stepsCount + 1) := increment_ok (by omega)
    have hRep : increment t.repIndex = .ok 1 := by
      rw [hSound.repIndex]
      rfl
    obtain ⟨score, hScore, hScorePos⟩ := @scoreFunction_ok t.config
      (by rwa [hSound.config]) _ hTime _ hDest
    have hCratio : 0 < (ctx.sourcesize : ℚ) / ctx.destsize := by positivity
    have hStore : ∀ {xs : List ℚ}, xs.length = repeatsPerCparams → ∀ x,
        store xs t.repIndex x = .ok (xs.set 0 x) := by
      intro xs hxs x
      rw [hSound.repIndex, store, if_pos (by rw [hxs]; decide)]
    have hDestNe : (ctx.destsize : ℚ) ≠ 0 := by exact_mod_cast hDest.ne'
    obtain ⟨cparams, hMeasured⟩ : ∃ c, t.auxCparams.measured score
        (ctx.sourcesize / ctx.destsize) ctime 0 = c := ⟨_, rfl⟩
    have hLegal : Legal o cparams ∧ 0 < cparams.score ∧ 0 < cparams.cratio := by
      rw [← hMeasured]
      exact ⟨{ hSound.auxCparams with }, hScorePos, hCratio⟩
    obtain ⟨improved, hImproved⟩ := @improvedBy_ok ⟨ctx, { t with
        stepsCount := t.stepsCount + 1, auxCparams := cparams
        currentScores := t.currentScores.set 0 score
        currentCratios := t.currentCratios.set 0 (ctx.sourcesize / ctx.destsize)
        repIndex := 1 }⟩ B hSound.best_cratio score hScorePos (ctx.sourcesize / ctx.destsize)
        ctime 0
    simp only [hSteps, hScore, assertThat_ok hScorePos, divide_ok hDestNe, hMeasured,
      hStore hSound.currentScores, hStore hSound.currentCratios, hRep, ok_bind, repeatsPerCparams,
      if_true, mean_set hSound.currentScores, mean_set hSound.currentCratios, hImproved]
    have hNext : ∀ {best : Cparams}, Legal o best → 0 < best.score → 0 < best.cratio →
        Sound o (n + 1) { t with
          stepsCount := t.stepsCount + 1, best := best, auxCparams := cparams
          currentScores := t.currentScores.set 0 score
          currentCratios := t.currentCratios.set 0 (ctx.sourcesize / ctx.destsize)
          repIndex := 0 } := fun hBest hBestScore hBestCratio =>
      { hSound with
        best := hBest
        best_score := hBestScore
        best_cratio := hBestCratio
        auxCparams := hLegal.1
        currentScores := (List.length_set).trans hSound.currentScores
        currentCratios := (List.length_set).trans hSound.currentCratios
        repIndex := rfl
        stepsCount := Nat.succ_le_succ hCount }
    cases improved with
    | true =>
      obtain ⟨t', hAux, hRestarted⟩ := updateAux_restarted
        (hNext hLegal.1 hLegal.2.1 hLegal.2.2) h.nsofts h.nhards hChosen hHint hHards hCodecs hn
        ctx true
      simp only [if_true, hAux, ok_bind]
      exact ⟨_, rfl, rfl, hRestarted⟩
    | false =>
      obtain ⟨t', hAux, hRestarted⟩ := updateAux_restarted
        (hNext hSound.best hSound.best_score hSound.best_cratio) h.nsofts h.nhards hChosen hHint
        hHards hCodecs hn ctx false
      simp only [Bool.false_eq_true, if_false, hAux, ok_bind]
      exact ⟨_, rfl, rfl, hRestarted⟩

theorem compressChunk_ok (B : Blosc) (h : Between o n s) (hBandwidth : o.config.bandwidth ≠ 0)
    (hHint : o.config.cparamsHint = false) (hHards : o.config.behaviour.nhardsBeforeStop ≠ 0)
    (hCodecs : o.codecs ≠ []) (hn : n + 1 < 2 ^ 31) {m : Measure} (hm : m.Positive) :
    ∃ s', compressChunk B s m = .ok s' ∧ Between o (n + 1) s' := by
  have hStart : Between o n { s with cctx := { s.cctx with sourcesize := m.sourcesize } } :=
    { h with context := fun hPos => { h.context hPos with } }
  obtain ⟨s₁, hNext, h₁, -⟩ := iabtuneNextCparams_ok hStart hm.sourcesize hn
  have hContext : LegalContext o { s₁.cctx with destsize := m.destsize } := { h₁.context with }
  obtain ⟨s', hUpdate, hSame, hSound, hReady⟩ := iabtuneUpdate_ok B
    (s := ⟨{ s₁.cctx with destsize := m.destsize }, s₁.btune⟩) { h₁ with context := hContext }
    hBandwidth hHint hHards hCodecs hn hm.destsize hm.ctime
  refine ⟨s', ?_, hSound, hReady, ?_, ?_, fun _ => ?_⟩
  · simp only [compressChunk, hNext, ok_bind]
    exact hUpdate
  · rw [hSame]
    exact hContext.blocksize
  · rw [hSame]
    exact hContext.nthreads
  · rw [hSame]
    exact hContext

theorem compressChunks_ok (B : Blosc) (hBandwidth : o.config.bandwidth ≠ 0)
    (hHint : o.config.cparamsHint = false) (hHards : o.config.behaviour.nhardsBeforeStop ≠ 0)
    (hCodecs : o.codecs ≠ []) {ms : List Measure} (hms : ∀ m ∈ ms, m.Positive)
    (h : Between o n s) (hn : n + ms.length < 2 ^ 31) :
    ∃ s', ms.foldlM (compressChunk B) s = .ok s' ∧ Between o (n + ms.length) s' := by
  induction ms generalizing n s with
  | nil => exact ⟨s, rfl, h⟩
  | cons m ms ih =>
    rw [List.length_cons] at hn
    obtain ⟨s₁, hChunk, h₁⟩ := compressChunk_ok B h hBandwidth hHint hHards hCodecs (by omega)
      (hms m List.mem_cons_self)
    obtain ⟨s', hRest, h'⟩ := ih (fun x hx => hms x (List.mem_cons_of_mem _ hx)) h₁ (by omega)
    refine ⟨s', ?_, ?_⟩
    · rw [List.foldlM_cons, hChunk, ok_bind, hRest]
    · rwa [List.length_cons, Nat.add_comm ms.length, ← Nat.add_assoc]

/-! ## Whole runs -/

/-- The configuration that the tuner works with. -/
def Config.counted (config : Config) : Config :=
  { config with behaviour := { config.behaviour with
    nhardsBeforeStop := config.behaviour.nhardsBeforeStop + 1 } }

/-- What a run of the tuner starts from when the parameters of the context are not used. -/
def origin (B : Blosc) (config : Config) (cctx : Context) (dctx : Option Context) : Origin :=
  ⟨config.counted, btuneGetCodecs B config, cctx, dctx⟩

theorem iabtuneInit_ok (B : Blosc) {config : Config} (hHint : config.cparamsHint = false)
    (hCodecs : btuneGetCodecs B config ≠ []) (cctx : Context) (dctx : Option Context) :
    ∃ s, iabtuneInit B (some config) cctx dctx = .ok s ∧
      Between (origin B config cctx dctx) 0 s ∧ s.btune.state = .codecFilter := by
  have hLength := List.length_pos_iff.mpr hCodecs
  have hLevel : 1 ≤ (if config.compMode = .hcr then 8 else cparamsDefault.clevel) ∧
      (if config.compMode = .hcr then 8 else cparamsDefault.clevel) ≤ maxClevel := by
    split <;> decide
  obtain ⟨start, hStart⟩ :
      ∃ c, startCparams config (btuneGetCodecs B config)[0] cctx dctx = c := ⟨_, rfl⟩
  have hLegal : Legal (origin B config cctx dctx) start ∧ 0 < start.score ∧ 0 < start.cratio := by
    rw [← hStart]
    refine ⟨⟨List.getElem_mem hLength, Nat.le_succ 1, .inl rfl, hLevel.1, hLevel.2, .inl rfl, rfl,
      rfl, rfl⟩, ?_, ?_⟩ <;> norm_num [startCparams, cparamsDefault]
  obtain ⟨b, hHard⟩ := initHard_eq (startTuner config (btuneGetCodecs B config) start cctx dctx)
  simp only [iabtuneInit, codecAt_ok hLength, ok_bind, hHint, Bool.false_eq_true, if_false, hStart,
    hHard]
  refine ⟨_, rfl, ⟨?_, ?_, rfl, rfl, fun h => absurd h (lt_irrefl 0)⟩, rfl⟩
  · exact
      { config := rfl
        codecs := rfl
        filterSplitLimit := rfl
        best := hLegal.1.turn
        best_score := hLegal.2.1
        best_cratio := hLegal.2.2
        auxCparams := hLegal.1
        currentScores := rfl
        currentCratios := rfl
        repIndex := rfl
        stepSize := by
          dsimp only
          split
          · exact .inl rfl
          · exact .inr rfl
        auxIndex := le_rfl
        stepsCount := le_rfl
        nwaitings := le_rfl
        nsofts := le_rfl
        nhards := le_rfl
        dctx := .inl rfl
        nthreadsDecomp := rfl }
  · exact Nat.mul_pos (by decide) hLength

/-- The ranges that the tuner keeps in every state of a run. -/
structure Safe (o : Origin) (s : System) : Prop where
  codecs : s.btune.codecs = o.codecs
  codecIndex : s.btune.state = .codecFilter →
    s.btune.auxIndex / s.btune.filterSplitLimit < o.codecs.length
  best : Legal o s.btune.best
  auxCparams : Legal o s.btune.auxCparams
  dctx : s.btune.dctx = o.dctx ∨
    s.btune.dctx = o.dctx.map fun d => { d with newNthreads := d.nthreads }
  nthreadsDecomp : s.btune.nthreadsDecomp = startThreads o.cctx o.dctx

theorem Between.safe (h : Between o n s) : Safe o s where
  codecs := h.sound.codecs
  codecIndex hState := by
    have hReady := h.ready
    simp only [Ready, hState] at hReady
    rw [h.sound.filterSplitLimit]
    omega
  best := h.sound.best
  auxCparams := h.sound.auxCparams
  dctx := h.sound.dctx
  nthreadsDecomp := h.sound.nthreadsDecomp

theorem compressChunk_bandwidth_zero (B : Blosc) (h : Between o n s) (hn : n + 1 < 2 ^ 31)
    (hState : s.btune.state = .codecFilter) (hBandwidth : o.config.bandwidth = 0) {m : Measure}
    (hm : m.Positive) : compressChunk B s m = .error .divisionByZero := by
  have hStart : Between o n { s with cctx := { s.cctx with sourcesize := m.sourcesize } } :=
    { h with context := fun hPos => { h.context hPos with } }
  obtain ⟨s₁, hNext, h₁, hState₁⟩ := iabtuneNextCparams_ok hStart hm.sourcesize hn
  have hSteps := increment_ok (n := s₁.btune.stepsCount) (by have := h₁.stepsCount; omega)
  have hScore : scoreFunction s₁.btune.config m.ctime m.destsize 0 = .error .divisionByZero := by
    have hKb : ((kb : Nat) : ℚ) ≠ 0 := by norm_num [kb]
    have hZero : divide ((m.destsize : ℚ) / kb) s₁.btune.config.bandwidth.toNat =
        .error .divisionByZero := by
      rw [divide, if_pos (by rw [h₁.sound.config, hBandwidth]; rfl)]
    simp only [scoreFunction, divide_ok hKb, hZero, ok_bind, error_bind]
  simp only [compressChunk, hNext, ok_bind, iabtuneUpdate, hState₁, hState, hSteps, hScore,
    error_bind]
  rfl

/-- Without a hint the tuner keeps every range in every run exactly if it has a bandwidth. -/
theorem run_safe_iff (B : Blosc) (config : Config) (cctx : Context) (dctx : Option Context)
    (hHint : config.cparamsHint = false)
    (hHards : config.behaviour.nhardsBeforeStop.toNat < 2 ^ 32 - 1)
    (hCodecs : btuneGetCodecs B config ≠ []) :
    (∀ ms : List Measure, (∀ m ∈ ms, m.Positive) → ms.length < 2 ^ 31 →
      ∃ s, run B (some config) cctx dctx ms = .ok s ∧ Safe (origin B config cctx dctx) s ∧
        (ms ≠ [] → LegalContext (origin B config cctx dctx) s.cctx)) ↔
      config.bandwidth ≠ 0 := by
  obtain ⟨s₀, hInit, h₀, hState⟩ := iabtuneInit_ok B hHint hCodecs cctx dctx
  constructor
  · intro hRuns hBandwidth
    have hPositive : (⟨1, 1, 1⟩ : Measure).Positive := ⟨by decide, by decide, by norm_num⟩
    obtain ⟨s, hRun, -⟩ := hRuns [⟨1, 1, 1⟩] (by simpa using hPositive) (by simp)
    rw [run, hInit, ok_bind, List.foldlM_cons,
      compressChunk_bandwidth_zero B h₀ (by decide) hState hBandwidth hPositive] at hRun
    cases hRun
  · intro hBandwidth ms hms hLength
    have hHardsNe : (origin B config cctx dctx).config.behaviour.nhardsBeforeStop ≠ 0 := by
      intro hZero
      have hNat := congrArg UInt32.toNat hZero
      simp only [origin, Config.counted, UInt32.toNat_add, UInt32.toNat_one, UInt32.toNat_zero]
        at hNat
      omega
    obtain ⟨s, hRun, h⟩ := compressChunks_ok B (o := origin B config cctx dctx) hBandwidth hHint
      hHardsNe hCodecs hms h₀ (by omega)
    refine ⟨s, ?_, h.safe, fun hne => h.context ?_⟩
    · rw [run, hInit, ok_bind, hRun]
    · have := List.length_pos_iff.mpr hne
      omega

/-- A context before its first chunk. -/
def sampleContext : Context where
  compcode := .lz4
  filter := 1
  splitmode := 1
  clevel := 5
  typesize := 8
  blocksize := 4096
  sourcesize := 0
  destsize := 0
  nthreads := 4
  newNthreads := 4

/-- The behaviour of `BTUNE_CONFIG_DEFAULTS` with a chosen bandwidth. -/
def sampleConfig (bandwidth : UInt32) : Config :=
  ⟨bandwidth, .balanced, .balanced, ⟨0, 5, 1, .stop⟩, false⟩

theorem run_safe_iff_sample :
    (∀ ms : List Measure, (∀ m ∈ ms, m.Positive) → ms.length < 2 ^ 31 →
      ∃ s, run ⟨true, true, 32⟩ (some (sampleConfig 1024)) sampleContext none ms = .ok s ∧
        Safe (origin ⟨true, true, 32⟩ (sampleConfig 1024) sampleContext none) s ∧
        (ms ≠ [] →
          LegalContext (origin ⟨true, true, 32⟩ (sampleConfig 1024) sampleContext none) s.cctx)) ↔
      (sampleConfig 1024).bandwidth ≠ 0 :=
  run_safe_iff ⟨true, true, 32⟩ (sampleConfig 1024) sampleContext none rfl (by decide) (by decide)

/-- The first score divides by the bandwidth. -/
theorem run_without_bandwidth :
    run ⟨true, true, 32⟩ (some (sampleConfig 0)) sampleContext none [⟨32768, 8192, 1⟩] =
      .error .divisionByZero := by
  rfl

end IronArray.Btune
