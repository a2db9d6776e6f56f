import IronArray.Btune.Potential

/-!
# What the tuner records of the parameters it applies

`iabtune_next_cparams` copies the parameters to try into the contexts. The compression level is
copied before `set_btune_cparams` bounds it, so where the bound takes effect the tuner remembers
another level than the one that is measured (`run_records_iff`).
-/

namespace IronArray.Btune

/-- The contexts hold the parameters `c`. -/
structure Applied (s : System) (c : Cparams) : Prop where
  compcode : s.cctx.compcode = c.compcode
  filter : s.cctx.filter = c.filter
  splitmode : s.cctx.splitmode = c.splitmode
  clevel : s.cctx.clevel = c.clevel
  blocksize : s.cctx.blocksize = c.blocksize
  typesize : s.cctx.typesize = c.shufflesize
  newNthreads : s.cctx.newNthreads.toInt = c.nthreadsComp
  nthreadsDecomp : (match s.btune.dctx with
    | some dctx => dctx.newNthreads.toInt
    | none => s.btune.nthreadsDecomp) = c.nthreadsDecomp

/-- What is recorded of the parameters in the contexts of `s`: the candidate is what was applied,
and so are the best parameters if the update by the chunk `m` replaces them. -/
structure Records (B : Blosc) (m : Measure) (s : System) : Prop where
  candidate : Applied s s.btune.auxCparams
  best : ∀ s', judge B ⟨{ s.cctx with destsize := m.destsize }, s.btune⟩ m.ctime = .ok true →
    iabtuneUpdate B ⟨{ s.cctx with destsize := m.destsize }, s.btune⟩ m.ctime = .ok s' →
    Applied s s'.btune.best

/-! ## The bound on the level -/

/-- The level is above the bound of the mode. -/
def Exceeds (mode : CompMode) (compcode : Compcode) (clevel : Nat) : Prop :=
  mode = .balanced ∧ (compcode = .zstd ∨ compcode = .zlib) ∧ 3 < clevel ∨ mode = .hcr ∧ 6 < clevel

theorem capClevel_eq_iff (mode : CompMode) (c : Cparams) :
    capClevel mode c = c.clevel ↔ ¬ Exceeds mode c.compcode c.clevel := by
  unfold capClevel Exceeds
  cases mode with
  | hsp => simp
  | balanced =>
    by_cases hCodec : c.compcode = .zstd ∨ c.compcode = .zlib
    · simp only [hCodec, true_and, reduceCtorEq, false_and, if_false, or_false]
      split <;> omega
    · simp [hCodec]
  | hcr =>
    simp only [reduceCtorEq, false_and, if_false, true_and, false_or]
    split <;> omega

/-- The first tuning of a codec in some modes starts in level three. -/
def StartsLow (t : Tuner) (compcode : Compcode) : Prop :=
  (t.config.perfMode = .comp ∨ t.config.perfMode = .balanced) ∧
    (compcode = .zstd ∨ t.best.compcode = .zlib) ∧ t.nhards = 0

/-- The bound leaves the level alone that the next call tries. -/
def KeepsLevel (t : Tuner) : Prop :=
  match t.state with
  | .codecFilter => ∀ compcode, t.codecs[t.auxIndex / t.filterSplitLimit]? = some compcode →
      StartsLow t compcode ∨ ¬ Exceeds t.config.compMode compcode t.best.clevel
  | .clevel =>
    if t.best.increasingClevel ∧ t.best.clevel ≤ maxClevel - t.stepSize then
      ¬ Exceeds t.config.compMode t.best.compcode (t.best.clevel + t.stepSize)
    else if ¬ t.best.increasingClevel ∧ t.stepSize < t.best.clevel then
      ¬ Exceeds t.config.compMode t.best.compcode (t.best.clevel - t.stepSize)
    else ¬ Exceeds t.config.compMode t.best.compcode t.best.clevel
  | .memcpy => True
  | _ => ¬ Exceeds t.config.compMode t.best.compcode t.best.clevel

/-! ## Threads -/

/-- The numbers of threads fit into the fields of the contexts. -/
def Threaded (c : Cparams) : Prop :=
  (∃ k : Int16, c.nthreadsComp = k.toInt) ∧ ∃ k : Int16, c.nthreadsDecomp = k.toInt

theorem Threaded.of_undirected {c c' : Cparams} (h : Threaded c)
    (hSame : c'.undirected = c.undirected) : Threaded c' := by
  show Threaded c'.undirected
  rw [hSame]
  exact h

theorem Applied.of_undirected {s : System} {c c' : Cparams} (h : Applied s c)
    (hSame : c'.undirected = c.undirected) : Applied s c' := by
  have hUndirected : Applied s c.undirected := { h with }
  rw [← hSame] at hUndirected
  exact { hUndirected with }

/-- Everything but the level is applied as it is recorded. -/
theorem setBtuneCparams_applied_iff (s : System) {c : Cparams} (hThreads : Threaded c) :
    Applied (setBtuneCparams s c) (setBtuneCparams s c).btune.auxCparams ↔
      ¬ Exceeds s.btune.config.compMode c.compcode c.clevel := by
  obtain ⟨⟨k, hComp⟩, j, hDecomp⟩ := hThreads
  rw [← capClevel_eq_iff]
  unfold setBtuneCparams
  constructor
  · intro h
    have hLevel := h.clevel
    cases hDctx : s.btune.dctx with
    | none => rw [hDctx] at hLevel; exact hLevel.symm
    | some dctx => rw [hDctx] at hLevel; exact hLevel.symm
  · intro h
    cases hDctx : s.btune.dctx with
    | none =>
      refine ⟨rfl, rfl, rfl, h.symm, rfl, rfl, ?_, ?_⟩
      · simp only [hComp, Int16.ofInt_toInt]
      · simp only [hDctx]
    | some dctx =>
      refine ⟨rfl, rfl, rfl, h.symm, rfl, rfl, ?_, ?_⟩
      · simp only [hComp, Int16.ofInt_toInt]
      · simp only [hDecomp, Int16.ofInt_toInt]

/-! ## The next parameters -/

theorem not_exceeds_three (mode : CompMode) (compcode : Compcode) : ¬ Exceeds mode compcode 3 := by
  unfold Exceeds
  omega

theorem nextCodecFilter_exceeds {t : Tuner} {c : Cparams} (hState : t.state = .codecFilter)
    (h : nextCodecFilter t t.best = .ok c) :
    ¬ Exceeds t.config.compMode c.compcode c.clevel ↔ KeepsLevel t := by
  obtain ⟨compcode, hCodec, h⟩ := bind_eq_ok.mp h
  cases h
  have hAt : t.codecs[t.auxIndex / t.filterSplitLimit]? = some compcode := by
    unfold codecAt at hCodec
    split at hCodec <;> cases hCodec
    assumption
  simp only [KeepsLevel, hState, hAt, Option.some.injEq, forall_eq']
  unfold StartsLow
  split
  · rename_i hLow
    exact iff_of_true (not_exceeds_three _ _) (.inl hLow)
  · rename_i hLow
    exact (or_iff_right hLow).symm

theorem nextClevel_exceeds {t : Tuner} (hState : t.state = .clevel) :
    ¬ Exceeds t.config.compMode (nextClevel t t.best).compcode (nextClevel t t.best).clevel ↔
      KeepsLevel t := by
  -- eight and nine are above every bound
  have hNine : ∀ n, Exceeds t.config.compMode t.best.compcode
      (if n = 9 ∧ t.best.compcode = .zstd then 8 else n) ↔
        Exceeds t.config.compMode t.best.compcode n := by
    intro n
    split
    · rename_i hEq
      simp [Exceeds, hEq.1]
    · rfl
  simp only [KeepsLevel, hState, nextClevel]
  cases hUp : t.best.increasingClevel with
  | true =>
    by_cases hRoom : t.best.clevel ≤ maxClevel - t.stepSize
    · simp only [if_true, hRoom, and_self, hNine]
    · simp only [if_true, hRoom, and_false, not_true_eq_false, false_and, if_false]
  | false =>
    by_cases hRoom : t.stepSize < t.best.clevel
    · simp only [Bool.false_eq_true, if_false, false_and, not_false_eq_true, hRoom, and_self, if_true]
    · simp only [Bool.false_eq_true, if_false, false_and, not_false_eq_true, hRoom, and_false]

/-- What choosing parameters amounts to: a candidate with the threads of the best parameters. -/
theorem iabtuneNextCparams_chosen {s s' : System} (hState : s.btune.state.Used)
    (hThreads : Threaded s.btune.best) (h : iabtuneNextCparams s = .ok s') :
    ∃ t c, s' = setBtuneCparams ⟨s.cctx, t⟩ c ∧ t.config = s.btune.config ∧ Threaded c ∧
      (¬ Exceeds s.btune.config.compMode c.compcode c.clevel ↔ KeepsLevel s.btune) := by
  unfold iabtuneNextCparams at h
  dsimp only at h
  cases hCase : s.btune.state with
  | codecFilter =>
    simp only [hCase] at h
    obtain ⟨c, hNext, h⟩ := bind_eq_ok.mp h
    obtain ⟨n, _, h⟩ := bind_eq_ok.mp h
    have hSame : Threaded c := by
      obtain ⟨_, _, hNext⟩ := bind_eq_ok.mp hNext
      cases hNext
      exact hThreads
    cases h
    exact ⟨_, c, rfl, rfl, hSame, nextCodecFilter_exceeds hCase hNext⟩
  | clevel =>
    simp only [hCase] at h
    obtain ⟨n, _, h⟩ := bind_eq_ok.mp h
    cases h
    exact ⟨_, nextClevel s.btune s.btune.best, rfl, rfl, hThreads, nextClevel_exceeds hCase⟩
  | waiting =>
    simp only [hCase] at h
    obtain ⟨n, _, h⟩ := bind_eq_ok.mp h
    cases h
    exact ⟨_, s.btune.best, rfl, rfl, hThreads, by rw [KeepsLevel, hCase]⟩
  | stop =>
    simp only [hCase] at h
    cases h
    exact ⟨_, s.btune.best, rfl, rfl, hThreads, by rw [KeepsLevel, hCase]⟩
  | shuffleSize | threads | blocksize | memcpy => simp [hCase, State.Used] at hState

theorem setBtuneCparams_threads (s : System) {c : Cparams} (h : Threaded c) :
    Threaded (setBtuneCparams s c).btune.auxCparams := by
  unfold setBtuneCparams
  cases hDctx : s.btune.dctx with
  | none => exact h
  | some dctx => exact h

/-! ## Runs -/

/-- What every state of a run keeps. -/
structure Tracked (t : Tuner) : Prop where
  regular : Regular t
  threads : Threaded t.best

theorem Keeps.tracked {t u : Tuner} (h : Keeps t u) (hTracked : Tracked t)
    (hState : u.state.Used) : Tracked u :=
  ⟨h.regular hTracked.regular hState, hTracked.threads.of_undirected h.best⟩

theorem startThreads_eq (cctx : Context) (dctx : Option Context) :
    ∃ k : Int16, startThreads cctx dctx = k.toInt := by
  cases dctx with
  | none => exact ⟨_, rfl⟩
  | some d => exact ⟨_, rfl⟩

theorem iabtuneInit_tracked {B : Blosc} {config : Option Config} {cctx : Context}
    {dctx : Option Context} {s : System} (h : iabtuneInit B config cctx dctx = .ok s) :
    Tracked s.btune := by
  refine ⟨(iabtuneInit_steady h).regular, ?_⟩
  unfold iabtuneInit at h
  cases config with
  | none => cases h
  | some config =>
    obtain ⟨compcode, _, h⟩ := bind_eq_ok.mp h
    cases h
    have hStart : Threaded (startCparams config compcode cctx dctx) :=
      ⟨⟨_, rfl⟩, startThreads_eq cctx dctx⟩
    have hHint : Threaded (extractBtuneCparams cctx (startTuner config (btuneGetCodecs B config)
        (startCparams config compcode cctx dctx) cctx dctx)
        (startCparams config compcode cctx dctx)) := by
      refine ⟨⟨_, rfl⟩, ?_⟩
      cases dctx with
      | none => exact ⟨_, rfl⟩
      | some d => exact ⟨_, rfl⟩
    dsimp only
    split_ifs
    · exact hHint.of_undirected (initSoft_keeps _).best
    · exact hHint
    · exact hHint.of_undirected (initHard_keeps _).best
    · exact hHint.of_undirected (initWithoutHards_keeps _).1.best
    · exact hStart.of_undirected (initHard_keeps _).best

/-- Judging a chunk: the best parameters stay or become the candidate. -/
theorem iabtuneUpdate_best {B : Blosc} {s s' : System} {ctime : ℚ} (hs : Regular s.btune)
    (h : iabtuneUpdate B s ctime = .ok s') :
    Regular s'.btune ∧ (s'.btune.best.undirected = s.btune.best.undirected ∨
      ∃ score cratio, s'.btune.best.undirected =
        (s.btune.auxCparams.measured score cratio ctime 0).undirected) ∧
      (judge B s ctime = .ok true → ∃ score cratio, s'.btune.best.undirected =
        (s.btune.auxCparams.measured score cratio ctime 0).undirected) := by
  by_cases hStop : s.btune.state = .stop
  · rw [iabtuneUpdate, if_pos hStop] at h
    cases h
    refine ⟨hs, .inl rfl, fun hTrue => ?_⟩
    rw [judge, if_pos hStop] at hTrue
    cases hTrue
  · obtain ⟨score, cratio, improved, _, _, hJudge, _, hAux, _⟩ := iabtuneUpdate_eq_ok hs hStop h
    obtain ⟨hKeeps, hUsed⟩ := updateAux_keeps (t := s.btune.judged score cratio ctime improved)
      hs.state hAux
    have hRegular : Regular (s.btune.judged score cratio ctime improved) :=
      ⟨(List.length_set).trans hs.currentScores, (List.length_set).trans hs.currentCratios, rfl,
        hs.state⟩
    refine ⟨hKeeps.regular hRegular hUsed, ?_, fun hTrue => ?_⟩
    · cases improved with
      | true => exact .inr ⟨score, cratio, hKeeps.best⟩
      | false => exact .inl hKeeps.best
    · rw [hJudge] at hTrue
      obtain rfl : improved = true := Except.ok.inj hTrue
      exact ⟨score, cratio, hKeeps.best⟩

/-- One chunk: the candidate and the best parameters are what was applied if the bound leaves the
level alone, and only then. -/
theorem nextCparams_records_iff {B : Blosc} {m : Measure} {s s' : System}
    (hTracked : Tracked s.btune) (h : iabtuneNextCparams s = .ok s') :
    Records B m s' ↔ KeepsLevel s.btune := by
  obtain ⟨t, c, rfl, hConfig, hThreads, hLevel⟩ :=
    iabtuneNextCparams_chosen hTracked.regular.state hTracked.threads h
  rw [← hLevel, ← hConfig, ← setBtuneCparams_applied_iff ⟨s.cctx, t⟩ hThreads]
  refine ⟨Records.candidate, fun hApplied => ⟨hApplied, fun s'' hJudge hUpdate => ?_⟩⟩
  obtain ⟨hKeeps, hSame⟩ := iabtuneNextCparams_keeps h
  have hRegular := hKeeps.regular hTracked.regular (hSame ▸ hTracked.regular.state)
  obtain ⟨_, _, hBest⟩ := iabtuneUpdate_best (s := ⟨{ (setBtuneCparams ⟨s.cctx, t⟩ c).cctx with
    destsize := m.destsize }, (setBtuneCparams ⟨s.cctx, t⟩ c).btune⟩) hRegular hUpdate
  obtain ⟨score, cratio, hBest⟩ := hBest hJudge
  have hMeasured : Applied (setBtuneCparams ⟨s.cctx, t⟩ c)
      ((setBtuneCparams ⟨s.cctx, t⟩ c).btune.auxCparams.measured score cratio m.ctime 0) :=
    { hApplied with }
  exact hMeasured.of_undirected hBest

theorem compressChunk_tracked {B : Blosc} {m : Measure} {s s' : System}
    (hTracked : Tracked s.btune) (h : compressChunk B s m = .ok s') : Tracked s'.btune := by
  obtain ⟨s₁, hNext, hUpdate⟩ := bind_eq_ok.mp h
  obtain ⟨hKeeps, hSame⟩ := iabtuneNextCparams_keeps hNext
  have hTracked₁ := hKeeps.tracked hTracked (hSame ▸ hTracked.regular.state)
  have hAux : Threaded s₁.btune.auxCparams := by
    obtain ⟨t, c, rfl, _, hThreads, _⟩ := iabtuneNextCparams_chosen
      (s := ⟨{ s.cctx with sourcesize := m.sourcesize }, s.btune⟩) hTracked.regular.state
      hTracked.threads hNext
    exact setBtuneCparams_threads _ hThreads
  obtain ⟨hRegular, hBest, _⟩ := iabtuneUpdate_best
    (s := ⟨{ s₁.cctx with destsize := m.destsize }, s₁.btune⟩) hTracked₁.regular hUpdate
  refine ⟨hRegular, ?_⟩
  rcases hBest with hBest | ⟨score, cratio, hBest⟩
  · exact hTracked₁.threads.of_undirected hBest
  · exact Threaded.of_undirected (c := s₁.btune.auxCparams.measured score cratio m.ctime 0) hAux hBest

theorem compressChunks_tracked {B : Blosc} {ms : List Measure} {s s' : System}
    (hTracked : Tracked s.btune) (h : ms.foldlM (compressChunk B) s = .ok s') :
    Tracked s'.btune := by
  induction ms generalizing s with
  | nil =>
    cases h
    exact hTracked
  | cons m ms ih =>
    rw [List.foldlM_cons] at h
    obtain ⟨s₁, hChunk, h⟩ := bind_eq_ok.mp h
    exact ih (compressChunk_tracked hTracked hChunk) h

/-- In every state of every run, the tuner records what it applies to the next chunk exactly if
the bound on the level leaves the level alone that it tries. -/
theorem run_records_iff {B : Blosc} {config : Option Config} {cctx : Context}
    {dctx : Option Context} {ms : List Measure} {m : Measure} {s s' : System}
    (hRun : run B config cctx dctx ms = .ok s)
    (hNext : iabtuneNextCparams ⟨{ s.cctx with sourcesize := m.sourcesize }, s.btune⟩ = .ok s') :
    Records B m s' ↔ KeepsLevel s.btune := by
  obtain ⟨s₀, hInit, hChunks⟩ := bind_eq_ok.mp hRun
  have hTracked : Tracked s.btune := compressChunks_tracked (iabtuneInit_tracked hInit) hChunks
  exact nextCparams_records_iff (s := ⟨{ s.cctx with sourcesize := m.sourcesize }, s.btune⟩)
    hTracked hNext

/-- A run that starts in balanced mode with the level nine of the fast codecs. -/
theorem run_records_balanced : ∃ s s',
    run ⟨true, true, 32⟩ (some (sampleConfig 1024)) sampleContext none [] = .ok s ∧
      iabtuneNextCparams ⟨{ s.cctx with sourcesize := 32768 }, s.btune⟩ = .ok s' ∧
      Records ⟨true, true, 32⟩ ⟨32768, 8192, 1⟩ s' := by
  obtain ⟨s, s', hRun, hNext, hKeeps⟩ : ∃ s s',
      run ⟨true, true, 32⟩ (some (sampleConfig 1024)) sampleContext none [] = .ok s ∧
        iabtuneNextCparams ⟨{ s.cctx with sourcesize := 32768 }, s.btune⟩ = .ok s' ∧
        KeepsLevel s.btune := by
    refine ⟨_, _, rfl, rfl, fun compcode hCodec => .inr ?_⟩
    have hFirst : some Compcode.lz4 = some compcode := hCodec
    cases hFirst
    rintro (⟨-, hCodec | hCodec, -⟩ | ⟨hMode, -⟩)
    · cases hCodec
    · cases hCodec
    · cases hMode
  exact ⟨s, s', hRun, hNext, (run_records_iff (m := ⟨32768, 8192, 1⟩) hRun hNext).mpr hKeeps⟩

/-- A configuration for high compression ratios and fast decompression. -/
def ratioConfig : Config := ⟨1024, .decomp, .hcr, ⟨0, 5, 1, .stop⟩, false⟩

/-- The first chunk is compressed with level eight and recorded with level six. -/
theorem run_records_ratio : ∃ s s',
    run ⟨true, true, 32⟩ (some ratioConfig) sampleContext none [] = .ok s ∧
      iabtuneNextCparams ⟨{ s.cctx with sourcesize := 32768 }, s.btune⟩ = .ok s' ∧
      s'.cctx.clevel = 8 ∧ s'.btune.auxCparams.clevel = 6 ∧
      ¬ Records ⟨true, true, 32⟩ ⟨32768, 8192, 1⟩ s' := by
  refine ⟨_, _, rfl, rfl, rfl, rfl, fun h => ?_⟩
  have hLevel := h.candidate.clevel
  revert hLevel
  decide

end IronArray.Btune
