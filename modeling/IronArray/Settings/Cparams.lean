import IronArray.Btune.Code

/-!
# Compression parameters from a configuration

`iarray.c` translates a configuration twice: into the parameters of the chunks that are compressed
with a prefilter and into those of the arrays that Caterva makes. `translators_agree_iff` says
for which filter flags both describe one pipeline that holds what was asked for.
-/

namespace IronArray

/-! ## Configurations -/

/-- `iarray_compression_codec_t`. -/
inductive CompressionCodec
  | blosclz | lz4 | lz4hc | snappy | zlib | zstd
  | zfpFixedAccuracy | zfpFixedPrecision | zfpFixedRate
deriving DecidableEq, Repr

/-- `iarray_compression_favor_t`. -/
inductive CompressionFavor
  | balance | speed | cratio
deriving DecidableEq, Repr

/-- `iarray_filter_flags_t`. -/
inductive FilterFlag
  | shuffle | bitshuffle | delta | truncPrec
deriving DecidableEq, Repr

def FilterFlag.mask : FilterFlag → BitVec 32
  | shuffle => 0x1
  | bitshuffle => 0x2
  | delta => 0x4
  | truncPrec => 0x8

/-- `iarray_config_t`. -/
structure Config where
  compressionCodec : CompressionCodec
  compressionLevel : Int
  compressionFavor : CompressionFavor
  useDict : Int
  splitmode : Int
  filterFlags : BitVec 32
  maxNumThreads : Int
  fpMantissaBits : Nat
  btune : Bool
  compressionMeta : Nat

/-- `cfg->filter_flags & flag`. -/
def Config.has (cfg : Config) (flag : FilterFlag) : Bool := cfg.filterFlags &&& flag.mask ≠ 0

/-! ## What Blosc and Caterva take -/

inductive BloscFilter
  | nofilter | shuffle | bitshuffle | delta | truncPrec
deriving DecidableEq, Repr

/-- A codec of Blosc: the number of a codec of the configuration, or one of the ZFP plugins. -/
inductive BloscCodec
  | number (codec : CompressionCodec)
  | zfpFixedAccuracy | zfpFixedRate | zfpFixedPrecision
deriving DecidableEq, Repr

/-- `BLOSC2_MAX_FILTERS`. -/
def maxFilters : Nat := 6

/-- `blosc2_cparams`. -/
structure BloscCparams where
  compcode : BloscCodec
  compcodeMeta : Nat
  clevel : Nat
  useDict : Int
  typesize : Int
  nthreads : Int
  blocksize : Int
  splitmode : Int
  filters : List BloscFilter
  filtersMeta : List Nat
deriving DecidableEq

/-- What is documented of `BLOSC2_CPARAMS_DEFAULTS`: the one filter is a shuffle in the last slot,
and there are no meta values. -/
structure BloscCparams.Documented (defaults : BloscCparams) : Prop where
  compcodeMeta : defaults.compcodeMeta = 0
  filters : defaults.filters = [.nofilter, .nofilter, .nofilter, .nofilter, .nofilter, .shuffle]
  filtersMeta : defaults.filtersMeta = List.replicate maxFilters 0

/-- `caterva_config_t`. -/
structure CatervaConfig where
  compcodec : BloscCodec
  compmeta : Nat
  complevel : Nat
  usedict : Int
  nthreads : Int
  splitmode : Int
  filters : List BloscFilter
  filtersmeta : List Nat
  udbtune : Option Btune.CompMode
deriving DecidableEq

/-- `memset(cat_cfg, 0, sizeof(caterva_config_t))`. -/
def catervaZeros : CatervaConfig where
  compcodec := .number .blosclz
  compmeta := 0
  complevel := 0
  usedict := 0
  nthreads := 0
  splitmode := 0
  filters := List.replicate maxFilters .nofilter
  filtersmeta := List.replicate maxFilters 0
  udbtune := none

def toUint8 (z : Int) : Nat := (z % 256).toNat

def toInt16 (z : Int) : Int := (z + 2 ^ 15) % 2 ^ 16 - 2 ^ 15

/-! ## The translators -/

section Blosc

variable (defaults : BloscCparams) (cfg : Config)

/-- `cparams->filters`: the index of the first slot does not move on. -/
def bloscFilters : List BloscFilter :=
  let filters := defaults.filters
  let filters := if cfg.has .truncPrec then filters.set 0 .truncPrec else filters
  let filters := if cfg.has .delta then filters.set 0 .delta else filters
  let filters := if cfg.has .bitshuffle then filters.set (maxFilters - 1) .bitshuffle else filters
  if cfg.has .shuffle then filters.set (maxFilters - 1) .shuffle else filters

/-- `cparams->filters_meta`. -/
def bloscFiltersMeta : List Nat :=
  if cfg.has .truncPrec then defaults.filtersMeta.set 0 cfg.fpMantissaBits
  else defaults.filtersMeta

/-- `cparams->compcode` and `cparams->compcode_meta`. -/
def bloscCompcode : BloscCodec × Nat :=
  match cfg.compressionCodec with
  | .zfpFixedAccuracy => (.zfpFixedAccuracy, cfg.compressionMeta)
  | .zfpFixedRate => (.zfpFixedRate, cfg.compressionMeta)
  | .zfpFixedPrecision => (.zfpFixedPrecision, cfg.compressionMeta)
  | codec => (.number codec, defaults.compcodeMeta)

/-- `iarray_create_blosc_cparams`, without the prefilter of the context. -/
def iarrayCreateBloscCparams (typesize blocksize : Int) : BloscCparams where
  compcode := (bloscCompcode defaults cfg).1
  compcodeMeta := (bloscCompcode defaults cfg).2
  clevel := toUint8 cfg.compressionLevel
  useDict := cfg.useDict
  typesize := typesize
  nthreads := toInt16 cfg.maxNumThreads
  blocksize := blocksize
  splitmode := cfg.splitmode
  filters := bloscFilters defaults cfg
  filtersMeta := bloscFiltersMeta defaults cfg

end Blosc

section Caterva

variable (cfg : Config)

/-- `cat_cfg->filters`. -/
def catervaFilters : List BloscFilter :=
  let filters := catervaZeros.filters
  let filters := if cfg.has .truncPrec then filters.set 0 .truncPrec else filters
  let bloscFilterIdx := if cfg.has .truncPrec then 1 else 0
  let filters := if cfg.has .delta then filters.set bloscFilterIdx .delta else filters
  let filters := if cfg.has .bitshuffle then filters.set (maxFilters - 1) .bitshuffle else filters
  if cfg.has .shuffle then filters.set (maxFilters - 1) .shuffle else filters

/-- `cat_cfg->filtersmeta`. -/
def catervaFiltersmeta : List Nat :=
  if cfg.has .truncPrec then catervaZeros.filtersmeta.set 0 cfg.fpMantissaBits
  else catervaZeros.filtersmeta

/-- `cat_cfg->compcodec` and `cat_cfg->compmeta`. -/
def catervaCompcodec : BloscCodec × Nat :=
  match cfg.compressionCodec with
  | .zfpFixedAccuracy => (.zfpFixedAccuracy, cfg.compressionMeta)
  | .zfpFixedRate => (.zfpFixedRate, cfg.compressionMeta)
  | .zfpFixedPrecision => (.zfpFixedPrecision, cfg.compressionMeta)
  | codec => (.number codec, catervaZeros.compmeta)

/-- The mode of the tuner that a configuration asks for. -/
def btuneCompMode : CompressionFavor → Btune.CompMode
  | .cratio => .hcr
  | .speed => .hsp
  | .balance => .balanced

/-- The configuration after `iarray_create_caterva_cfg`: at level zero there is no tuner. -/
def disableBtune : Config :=
  if cfg.compressionLevel = 0 then { cfg with btune := false } else cfg

/-- `iarray_create_caterva_cfg`. -/
def iarrayCreateCatervaCfg : CatervaConfig where
  compcodec := (catervaCompcodec cfg).1
  compmeta := (catervaCompcodec cfg).2
  complevel := toUint8 cfg.compressionLevel
  usedict := cfg.useDict
  nthreads := toInt16 cfg.maxNumThreads
  splitmode := cfg.splitmode
  filters := catervaFilters cfg
  filtersmeta := catervaFiltersmeta cfg
  udbtune :=
    if (disableBtune cfg).btune then some (btuneCompMode cfg.compressionFavor)
    else catervaZeros.udbtune

end Caterva

/-! ## Pipelines -/

/-- The pipeline that a chunk goes through. -/
structure CompressionPipeline where
  filters : List (BloscFilter × Nat)
  codec : BloscCodec
  codecMeta : Nat
  level : Nat
  splitmode : Int
  useDict : Int
  nthreads : Int
deriving DecidableEq

def BloscCparams.pipeline (p : BloscCparams) : CompressionPipeline where
  filters := p.filters.zip p.filtersMeta
  codec := p.compcode
  codecMeta := p.compcodeMeta
  level := p.clevel
  splitmode := p.splitmode
  useDict := p.useDict
  nthreads := p.nthreads

def CatervaConfig.pipeline (p : CatervaConfig) : CompressionPipeline where
  filters := p.filters.zip p.filtersmeta
  codec := p.compcodec
  codecMeta := p.compmeta
  level := p.complevel
  splitmode := p.splitmode
  useDict := p.usedict
  nthreads := p.nthreads

/-- The filter that a flag asks for. -/
def FilterFlag.filter : FilterFlag → BloscFilter
  | shuffle => .shuffle
  | bitshuffle => .bitshuffle
  | delta => .delta
  | truncPrec => .truncPrec

/-- The meta value of the filter. -/
def FilterFlag.meta (cfg : Config) : FilterFlag → Nat
  | truncPrec => cfg.fpMantissaBits
  | _ => 0

/-- The filters that were asked for are in the pipeline once, with their meta values, and the
others are not. -/
def CompressionPipeline.Exact (p : CompressionPipeline) (cfg : Config) : Prop :=
  ∀ flag : FilterFlag, p.filters.filter (fun slot => slot.1 = flag.filter) =
    if cfg.has flag then [(flag.filter, flag.meta cfg)] else []

/-! ## Where the pipelines agree -/

section Agree

variable {defaults : BloscCparams}

/-- Apart from the filters the pipelines always agree. -/
theorem pipelines_agree_iff (hDefaults : defaults.Documented) (cfg : Config)
    (typesize blocksize : Int) :
    (iarrayCreateBloscCparams defaults cfg typesize blocksize).pipeline =
        (iarrayCreateCatervaCfg cfg).pipeline ↔
      (bloscFilters defaults cfg).zip (bloscFiltersMeta defaults cfg) =
        (catervaFilters cfg).zip (catervaFiltersmeta cfg) := by
  rw [CompressionPipeline.mk.injEq]
  have hCodec : bloscCompcode defaults cfg = catervaCompcodec cfg := by
    unfold bloscCompcode catervaCompcodec
    rw [hDefaults.compcodeMeta]
    cases cfg.compressionCodec <;> rfl
  exact ⟨And.left, fun h =>
    ⟨h, congrArg Prod.fst hCodec, congrArg Prod.snd hCodec, rfl, rfl, rfl, rfl⟩⟩

theorem FilterFlag.forall_iff {P : FilterFlag → Prop} :
    (∀ flag, P flag) ↔ P .shuffle ∧ P .bitshuffle ∧ P .delta ∧ P .truncPrec := by
  refine ⟨fun h => ⟨h _, h _, h _, h _⟩, ?_⟩
  rintro ⟨hShuffle, hBitshuffle, hDelta, hTruncPrec⟩ flag
  cases flag
  · exact hShuffle
  · exact hBitshuffle
  · exact hDelta
  · exact hTruncPrec

/-- The filters are the same if there is a shuffle of either kind and only one filter wants the
first slot. -/
theorem filters_agree_iff (hDefaults : defaults.Documented) (cfg : Config) :
    (bloscFilters defaults cfg).zip (bloscFiltersMeta defaults cfg) =
        (catervaFilters cfg).zip (catervaFiltersmeta cfg) ↔
      (cfg.has .shuffle ∨ cfg.has .bitshuffle) ∧ ¬ (cfg.has .truncPrec ∧ cfg.has .delta) := by
  unfold bloscFilters bloscFiltersMeta catervaFilters catervaFiltersmeta
  rw [hDefaults.filters, hDefaults.filtersMeta]
  cases cfg.has .truncPrec <;> cases cfg.has .delta <;> cases cfg.has .bitshuffle <;>
    cases cfg.has .shuffle <;> simp [catervaZeros, maxFilters, List.replicate]

/-- Caterva gets what was asked for unless both shuffles were. -/
theorem caterva_exact_iff (cfg : Config) :
    (iarrayCreateCatervaCfg cfg).pipeline.Exact cfg ↔
      ¬ (cfg.has .shuffle ∧ cfg.has .bitshuffle) := by
  rw [CompressionPipeline.Exact, FilterFlag.forall_iff]
  simp only [CatervaConfig.pipeline, iarrayCreateCatervaCfg, catervaFilters, catervaFiltersmeta,
    FilterFlag.filter, FilterFlag.meta]
  cases cfg.has .truncPrec <;> cases cfg.has .delta <;> cases cfg.has .bitshuffle <;>
    cases cfg.has .shuffle <;> simp [catervaZeros, maxFilters, List.replicate]

/-- Blosc gets what was asked for if that is one of the shuffles and at most one filter for the
first slot. -/
theorem blosc_exact_iff (hDefaults : defaults.Documented) (cfg : Config)
    (typesize blocksize : Int) :
    (iarrayCreateBloscCparams defaults cfg typesize blocksize).pipeline.Exact cfg ↔
      cfg.has .shuffle ≠ cfg.has .bitshuffle ∧ ¬ (cfg.has .truncPrec ∧ cfg.has .delta) := by
  rw [CompressionPipeline.Exact, FilterFlag.forall_iff]
  simp only [BloscCparams.pipeline, iarrayCreateBloscCparams, bloscFilters, bloscFiltersMeta,
    FilterFlag.filter, FilterFlag.meta, hDefaults.filters, hDefaults.filtersMeta]
  cases cfg.has .truncPrec <;> cases cfg.has .delta <;> cases cfg.has .bitshuffle <;>
    cases cfg.has .shuffle <;> simp [maxFilters, List.replicate]

/-- Both translators describe one pipeline, and it holds what was asked for. -/
def TranslatorsAgree (defaults : BloscCparams) (cfg : Config) (typesize blocksize : Int) : Prop :=
  (iarrayCreateBloscCparams defaults cfg typesize blocksize).pipeline =
      (iarrayCreateCatervaCfg cfg).pipeline ∧
    (iarrayCreateBloscCparams defaults cfg typesize blocksize).pipeline.Exact cfg ∧
    (iarrayCreateCatervaCfg cfg).pipeline.Exact cfg

/-- The translators agree exactly if one of the two shuffles is asked for and the two filters for
the first slot are not both asked for. -/
theorem translators_agree_iff (hDefaults : defaults.Documented) (cfg : Config)
    (typesize blocksize : Int) :
    TranslatorsAgree defaults cfg typesize blocksize ↔
      cfg.has .shuffle ≠ cfg.has .bitshuffle ∧ ¬ (cfg.has .truncPrec ∧ cfg.has .delta) := by
  rw [TranslatorsAgree, pipelines_agree_iff hDefaults, filters_agree_iff hDefaults,
    blosc_exact_iff hDefaults,
    caterva_exact_iff]
  constructor
  · rintro ⟨_, hExact, _⟩
    exact hExact
  · rintro ⟨hOne, hFirst⟩
    refine ⟨⟨?_, hFirst⟩, ⟨hOne, hFirst⟩, ?_⟩
    · by_contra hNone
      obtain ⟨hShuffle, hBitshuffle⟩ := not_or.mp hNone
      exact hOne (by rw [Bool.eq_false_of_not_eq_true hShuffle,
        Bool.eq_false_of_not_eq_true hBitshuffle])
    · rintro ⟨hShuffle, hBitshuffle⟩
      exact hOne (hShuffle.trans hBitshuffle.symm)

end Agree

namespace CparamsExample

def defaults : BloscCparams where
  compcode := .number .blosclz
  compcodeMeta := 0
  clevel := 5
  useDict := 0
  typesize := 8
  nthreads := 1
  blocksize := 0
  splitmode := 4
  filters := [.nofilter, .nofilter, .nofilter, .nofilter, .nofilter, .shuffle]
  filtersMeta := List.replicate maxFilters 0

theorem documented : defaults.Documented := ⟨rfl, rfl, rfl⟩

/-- `IARRAY_CONFIG_DEFAULTS`, with other filters. -/
def configWith (filterFlags : BitVec 32) (fpMantissaBits : Nat) : Config where
  compressionCodec := .lz4
  compressionLevel := 5
  compressionFavor := .balance
  useDict := 0
  splitmode := 3
  filterFlags := filterFlags
  maxNumThreads := 1
  fpMantissaBits := fpMantissaBits
  btune := true
  compressionMeta := 0

end CparamsExample

open CparamsExample in
/-- The pipelines agree on a bitshuffle behind a truncation to 23 bits. -/
theorem translators_agree_bitshuffle : TranslatorsAgree defaults (configWith 0xA 23) 4 0 :=
  (translators_agree_iff documented (configWith 0xA 23) 4 0).mpr (by decide)

open CparamsExample in
/-- Without filters the chunks are shuffled and the array is not. With a delta and 23 bits of
mantissa the chunks lose the truncation and the delta gets its bits. -/
theorem translators_agree_fails :
    ¬ TranslatorsAgree defaults (configWith 0 0) 8 0 ∧
    (iarrayCreateBloscCparams defaults (configWith 0 0) 8 0).filters =
      [.nofilter, .nofilter, .nofilter, .nofilter, .nofilter, .shuffle] ∧
    (iarrayCreateCatervaCfg (configWith 0 0)).filters = List.replicate 6 .nofilter ∧
    ¬ TranslatorsAgree defaults (configWith 0xD 23) 4 0 ∧
    (iarrayCreateBloscCparams defaults (configWith 0xD 23) 4 0).pipeline.filters =
      [(.delta, 23), (.nofilter, 0), (.nofilter, 0), (.nofilter, 0), (.nofilter, 0),
        (.shuffle, 0)] ∧
    (iarrayCreateCatervaCfg (configWith 0xD 23)).pipeline.filters =
      [(.truncPrec, 23), (.delta, 0), (.nofilter, 0), (.nofilter, 0), (.nofilter, 0),
        (.shuffle, 0)] := by
  refine ⟨fun h => ?_, by decide, by decide, fun h => ?_, by decide, by decide⟩
  · exact absurd (congrArg CompressionPipeline.filters h.1) (by decide)
  · exact absurd (congrArg CompressionPipeline.filters h.1) (by decide)

end IronArray
