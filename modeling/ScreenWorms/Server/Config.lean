import ScreenWorms.Common.Config
import ScreenWorms.Server.FixedPoint

/-!
# The command line of the server

Every member of `ServerConfig` has an option, and no other parameters are accepted. What is accepted
is within the limits that the rest of the server relies on, and everything within these limits can
be asked for, with one exception: the seed is positive if it is asked for, but may be zero if it is
the time.

## Main definitions

* `ServerOptions`, `ServerOptions.parseCmdParams`
* `ServerOptions.Describes` — what options ask for

## Main results

* `ServerOptions.serverOptions_exact` — which command lines are accepted, and what they mean
* `ServerOptions.serverOptions_of_perm` — all that is within the limits can be asked for
-/

namespace ScreenWorms

open Getopt

/-- `ServerConfig`, with the members that the socket and the timer use. -/
structure ServerOptions extends ServerConfig where
  port : ℕ
  roundsPerSec : ℕ
  port_mem : 1 ≤ port ∧ port ≤ 65535
  roundsPerSec_mem : 1 ≤ roundsPerSec ∧ roundsPerSec ≤ 250

namespace ServerOptions

/-! ## Limits and defaults -/

theorem defaultPort_mem : 1 ≤ 2021 ∧ 2021 ≤ 65535 := by decide

theorem defaultTurningSpeed_mem : 1 ≤ 6 ∧ 6 ≤ 90 := by decide

theorem defaultRoundsPerSec_mem : 1 ≤ 50 ∧ 50 ≤ 250 := by decide

theorem defaultWidth_mem : 16 ≤ 640 ∧ 640 ≤ 4096 := by decide

theorem defaultHeight_mem : 16 ≤ 480 ∧ 480 ≤ 4096 := by decide

/-- `DEFAULT_PORT`, between `MIN_PORT` and `MAX_PORT`. -/
def defaultPort : Between 1 65535 := ⟨2021, defaultPort_mem⟩

/-- `DEFAULT_TURNING_SPEED`, between `MIN_TURNING_SPEED` and `MAX_TURNING_SPEED`. -/
def defaultTurningSpeed : Between 1 90 := ⟨6, defaultTurningSpeed_mem⟩

/-- `DEFAULT_ROUNDS_PER_SEC`, between `MIN_ROUNDS_PER_SEC` and `MAX_ROUNDS_PER_SEC`. -/
def defaultRoundsPerSec : Between 1 250 := ⟨50, defaultRoundsPerSec_mem⟩

/-- `DEFAULT_WIDTH`, between `MIN_BOARD_DIM_SIZE` and `MAX_BOARD_DIM_SIZE`. -/
def defaultWidth : Between 16 4096 := ⟨640, defaultWidth_mem⟩

/-- `DEFAULT_HEIGHT`, between the same limits. -/
def defaultHeight : Between 16 4096 := ⟨480, defaultHeight_mem⟩

/-- A seed. `static_cast<uint32_t>(time(nullptr))` may be any. -/
abbrev Seed := {n : ℕ // n < 2 ^ 32}

/-- The seed of an option is not zero. -/
def givenSeed (n : Between 1 (2 ^ 32 - 1)) : Seed :=
  ⟨n.val, Nat.lt_of_le_pred (Nat.two_pow_pos 32) n.property.2⟩

def readSeed (c : Byte) (value : List Byte) : Except (List Byte) Seed :=
  (optionalParamValueToUint uint32 1 (2 ^ 32 - 1) c value).map givenSeed

/-! ## Parsing -/

/-- `ServerConfig::ServerConfig`, at this time. -/
def ofParams (time : ℕ) (params : Params) : Except (List Byte) ServerOptions := do
  let port ← params.valueOr (byteOf 'p') defaultPort (optionalParamValueToUint uint16 1 65535)
  let rngSeed ← params.valueOr (byteOf 's') ⟨toUInt32 time, toUInt32_lt time⟩ readSeed
  let turningSpeed ← params.valueOr (byteOf 't') defaultTurningSpeed
    (optionalParamValueToUint uint8 1 90)
  let roundsPerSec ← params.valueOr (byteOf 'v') defaultRoundsPerSec
    (optionalParamValueToUint uint16 1 250)
  let boardWidth ← params.valueOr (byteOf 'w') defaultWidth (optionalParamValueToUint uint16 16 4096)
  let boardHeight ← params.valueOr (byteOf 'h') defaultHeight
    (optionalParamValueToUint uint16 16 4096)
  return {
    rngSeed := rngSeed, rngSeed_lt := rngSeed.property
    turningSpeed := turningSpeed, turningSpeed_mem := turningSpeed.property
    boardWidth := boardWidth, boardWidth_mem := boardWidth.property
    boardHeight := boardHeight, boardHeight_mem := boardHeight.property
    port := port, port_mem := port.property
    roundsPerSec := roundsPerSec, roundsPerSec_mem := roundsPerSec.property }

/-- The options that are accepted. -/
def accepted : List Byte := ascii "pstvwh"

/-- `parseCmdParams`, of the arguments after the name of the program. -/
def parseCmdParams (time : ℕ) (args : List (List Byte)) : Except (List Byte) ServerOptions := do
  let (params, positional) ← parseCmdParameters accepted args
  match positional with
  | [] => ofParams time params
  | param :: _ => .error (param ++ ascii ": unexpected positional parameter passed")

/-- What options ask for: every member is what its option says last, or has its default. -/
structure Describes (time : ℕ) (options : List (Byte × List Byte)) (o : ServerOptions) : Prop where
  port : Says 2021 o.port (lastValue (byteOf 'p') options)
  rngSeed : Says (toUInt32 time) o.rngSeed (lastValue (byteOf 's') options)
  rngSeed_ne : lastValue (byteOf 's') options ≠ none → o.rngSeed ≠ 0
  turningSpeed : Says 6 o.turningSpeed (lastValue (byteOf 't') options)
  roundsPerSec : Says 50 o.roundsPerSec (lastValue (byteOf 'v') options)
  boardWidth : Says 640 o.boardWidth (lastValue (byteOf 'w') options)
  boardHeight : Says 480 o.boardHeight (lastValue (byteOf 'h') options)

variable {time : ℕ} {args : List (List Byte)} {params : Params} {o : ServerOptions}
  {options : List (Byte × List Byte)} {e : List Byte}

theorem readSeed_eq_ok {c : Byte} {value : List Byte} {seed : Seed} :
    readSeed c value = .ok seed ↔
      (isNonNegativeNumber value = true ∧ valueOf value = seed) ∧ seed.val ≠ 0 := by
  have hmax : 2 ^ 32 - 1 < 2 ^ uint32.bits := by decide
  rw [readSeed, Except.map_eq_ok]
  constructor
  · rintro ⟨n, hn, rfl⟩
    exact ⟨(optionalParamValueToUint_eq_ok hmax).mp hn, Nat.one_le_iff_ne_zero.mp n.property.1⟩
  · rintro ⟨hvalue, hne⟩
    refine ⟨⟨seed, Nat.one_le_iff_ne_zero.mpr hne, Nat.le_pred_of_lt seed.property⟩, ?_, rfl⟩
    exact (optionalParamValueToUint_eq_ok hmax).mpr hvalue

theorem seed_eq_ok {default seed : Seed} : params.valueOr (byteOf 's') default readSeed = .ok seed ↔
    Says default seed (params.find? (byteOf 's')) ∧
      (params.find? (byteOf 's') ≠ none → seed.val ≠ 0) := by
  rw [Params.valueOr]
  split
  · rename_i hnone
    rw [hnone, Except.ok.injEq, Says, Subtype.ext_iff, eq_comm]
    exact (and_iff_left fun h => absurd rfl h).symm
  · rename_i value hvalue
    rw [hvalue, readSeed_eq_ok, Says]
    exact and_congr_right fun _ => ⟨fun h _ => h, fun h => h (Option.some_ne_none value)⟩

/-- **The configuration** that the values of options give. -/
theorem ofParams_eq_ok (hparams : ∀ c, params.find? c = lastValue c options) :
    ofParams time params = .ok o ↔ Describes time options o := by
  have hport := fun n => @valueOr_eq_ok uint16 1 65535 (byteOf 'p') params (by decide) defaultPort n
  have hturningSpeed := fun n =>
    @valueOr_eq_ok uint8 1 90 (byteOf 't') params (by decide) defaultTurningSpeed n
  have hroundsPerSec := fun n =>
    @valueOr_eq_ok uint16 1 250 (byteOf 'v') params (by decide) defaultRoundsPerSec n
  have hwidth := fun n => @valueOr_eq_ok uint16 16 4096 (byteOf 'w') params (by decide) defaultWidth n
  have hheight := fun n =>
    @valueOr_eq_ok uint16 16 4096 (byteOf 'h') params (by decide) defaultHeight n
  rw [ofParams]
  simp only [Except.bind_eq_ok, hport, seed_eq_ok, hturningSpeed, hroundsPerSec, hwidth, hheight,
    hparams]
  constructor
  · rintro ⟨port, hport, seed, ⟨hseed, hne⟩, turningSpeed, hturning, rounds, hrounds, width, hwidth,
      height, hheight, ho⟩
    obtain rfl := Except.ok.inj ho
    exact ⟨hport, hseed, hne, hturning, hrounds, hwidth, hheight⟩
  · intro h
    exact ⟨⟨o.port, o.port_mem⟩, h.port, ⟨o.rngSeed, o.rngSeed_lt⟩, ⟨h.rngSeed, h.rngSeed_ne⟩,
      ⟨o.turningSpeed, o.turningSpeed_mem⟩, h.turningSpeed, ⟨o.roundsPerSec, o.roundsPerSec_mem⟩,
      h.roundsPerSec, ⟨o.boardWidth, o.boardWidth_mem⟩, h.boardWidth,
      ⟨o.boardHeight, o.boardHeight_mem⟩, h.boardHeight, rfl⟩

theorem blames_of_ofParams (hspells : Spells dash accepted args ⟨options, []⟩)
    (hparams : ∀ c, params.find? c = lastValue c options) (h : ofParams time params = .error e) :
    Blames args e := by
  have huint : ∀ {T : UintType} {minValue maxValue : ℕ} {c : Byte} {default},
      params.valueOr c default (optionalParamValueToUint T minValue maxValue) = .error e →
        Blames args e :=
    fun h => blames_of_valueOr (fun _ _ => optionalParamValueToUint_eq_error) hspells hparams h
  rw [ofParams] at h
  rcases Except.bind_eq_error.mp h with h | ⟨_, -, h⟩
  · exact huint h
  rcases Except.bind_eq_error.mp h with h | ⟨_, -, h⟩
  · exact blames_of_valueOr (fun _ _ h => optionalParamValueToUint_eq_error
      (Except.map_eq_error.mp h)) hspells hparams h
  rcases Except.bind_eq_error.mp h with h | ⟨_, -, h⟩
  · exact huint h
  rcases Except.bind_eq_error.mp h with h | ⟨_, -, h⟩
  · exact huint h
  rcases Except.bind_eq_error.mp h with h | ⟨_, -, h⟩
  · exact huint h
  rcases Except.bind_eq_error.mp h with h | ⟨_, -, h⟩
  · exact huint h
  · cases h

theorem parseCmdParams_eq_ok : parseCmdParams time args = .ok o ↔
    ∃ options, Spells dash accepted args ⟨options, []⟩ ∧ Describes time options o := by
  rw [parseCmdParams, Except.bind_eq_ok]
  constructor
  · rintro ⟨⟨params, positional⟩, hparsed, ho⟩
    rcases positional with _ | ⟨param, positional⟩
    · obtain ⟨options, hspells, hparams⟩ := (parseCmdParameters_eq_ok (by decide)).mp hparsed
      exact ⟨options, hspells, (ofParams_eq_ok hparams).mp ho⟩
    · cases ho
  · rintro ⟨options, hspells, hdescribes⟩
    let params := options.foldl (fun params o => params.set o.1 o.2) (∅ : Params)
    have hparams : ∀ c, params.find? c = lastValue c options := find?_foldl_set options
    exact ⟨(params, []), (parseCmdParameters_eq_ok (by decide)).mpr ⟨options, hspells, hparams⟩,
      (ofParams_eq_ok hparams).mpr hdescribes⟩

theorem blames_of_parseCmdParams (h : parseCmdParams time args = .error e) : Blames args e := by
  rw [parseCmdParams] at h
  rcases Except.bind_eq_error.mp h with h | ⟨⟨params, positional⟩, hparsed, h⟩
  · exact blames_of_parseCmdParameters h
  · obtain ⟨options, hspells, hparams⟩ := (parseCmdParameters_eq_ok (by decide)).mp hparsed
    rcases positional with _ | ⟨param, positional⟩
    · exact blames_of_ofParams hspells hparams h
    · have he := Except.error.inj h
      exact ⟨param, ascii "unexpected positional parameter passed", he.symm,
        Or.inl (hspells.mem_positional List.mem_cons_self)⟩

/-- **Which command lines are accepted, and what they mean.** The others are told what is wrong. -/
theorem serverOptions_exact (time : ℕ) (args : List (List Byte)) :
    (∀ o, parseCmdParams time args = .ok o ↔
      ∃ options, Spells dash accepted args ⟨options, []⟩ ∧ Describes time options o) ∧
    ∀ e, parseCmdParams time args = .error e → Blames args e :=
  ⟨fun _ => parseCmdParams_eq_ok, fun _ => blames_of_parseCmdParams⟩

/-! ## Everything can be asked for -/

/-- The options that ask for a configuration. -/
def spelled (o : ServerOptions) : List (Byte × List Byte) :=
  [(byteOf 'p', decimal o.port), (byteOf 's', decimal o.rngSeed), (byteOf 't', decimal o.turningSpeed),
    (byteOf 'v', decimal o.roundsPerSec), (byteOf 'w', decimal o.boardWidth),
    (byteOf 'h', decimal o.boardHeight)]

/-- **All that is within the limits can be asked for**, with the options in any order. -/
theorem serverOptions_of_perm (ho : o.rngSeed ≠ 0) (hperm : options.Perm o.spelled)
    (hspells : Spells dash accepted args ⟨options, []⟩) : parseCmdParams time args = .ok o := by
  have hnodup : (options.map Prod.fst).Nodup := by
    rw [(hperm.map Prod.fst).nodup_iff]
    show [byteOf 'p', byteOf 's', byteOf 't', byteOf 'v', byteOf 'w', byteOf 'h'].Nodup
    decide
  have hsays : ∀ {c : Byte} {n default : ℕ}, (c, decimal n) ∈ o.spelled →
      Says default n (lastValue c options) := fun hmem => by
    rw [(lastValue_eq_some_iff hnodup).mpr (hperm.mem_iff.mpr hmem)]
    exact ⟨isNonNegativeNumber_decimal _, valueOf_decimal _⟩
  refine parseCmdParams_eq_ok.mpr ⟨options, hspells, ?_⟩
  exact {
    port := hsays (by simp [spelled])
    rngSeed := hsays (by simp [spelled])
    rngSeed_ne := fun _ => ho
    turningSpeed := hsays (by simp [spelled])
    roundsPerSec := hsays (by simp [spelled])
    boardWidth := hsays (by simp [spelled])
    boardHeight := hsays (by simp [spelled]) }

theorem one_lt_seeds : 1 < 2 ^ 32 := by decide

/-- The options from last to first, with values of both kinds. -/
theorem serverOptions_of_perm_six : ∃ o : ServerOptions,
    o.toServerConfig = smallBoard 1 one_lt_seeds ∧ parseCmdParams 0 [ascii "-h", ascii "16",
      ascii "-w16", ascii "-v50", ascii "-t", ascii "6", ascii "-s1", ascii "-p", ascii "2021"] =
        .ok o := by
  let o : ServerOptions :=
    ⟨smallBoard 1 one_lt_seeds, 2021, 50, defaultPort_mem, defaultRoundsPerSec_mem⟩
  have hperm : o.spelled.reverse.Perm o.spelled := List.reverse_perm _
  have hspells : Spells dash accepted [ascii "-h", ascii "16", ascii "-w16", ascii "-v50",
      ascii "-t", ascii "6", ascii "-s1", ascii "-p", ascii "2021"] ⟨o.spelled.reverse, []⟩ :=
    (scan_eq_ok_iff (by decide)).mp (by decide +kernel)
  exact ⟨o, rfl, serverOptions_of_perm Nat.one_ne_zero hperm hspells⟩

end ServerOptions

end ScreenWorms
