import ScreenWorms.Common.Config

/-!
# The command line of the client

The client takes the game server's name, which is the one parameter that is not an option, and
options for the player's name, both ports and the graphical interface. Nothing checks the names of
computers.

## Main definitions

* `ClientConfig`, `ClientConfig.parseCmdParams`
* `ClientConfig.Describes` — what options and the other parameter ask for

## Main results

* `ClientConfig.clientConfig_exact` — which command lines are accepted, and what they mean
* `ClientConfig.clientConfig_of_perm` — every configuration can be asked for
-/

namespace ScreenWorms

open Getopt

/-- `ClientConfig`. -/
structure ClientConfig where
  playerName : PlayerName
  serverPort : ℕ
  guiServer : List Byte
  guiPort : ℕ
  gameServer : List Byte
  serverPort_mem : 1024 ≤ serverPort ∧ serverPort ≤ 65535
  guiPort_mem : 1024 ≤ guiPort ∧ guiPort ≤ 65535

namespace ClientConfig

/-! ## Defaults -/

theorem defaultServerPort_mem : 1024 ≤ 2021 ∧ 2021 ≤ 65535 := by decide

theorem defaultGuiPort_mem : 1024 ≤ 20210 ∧ 20210 ≤ 65535 := by decide

/-- `DEFAULT_SERVER_PORT`, between `MIN_PORT` and `MAX_PORT`. -/
def defaultServerPort : Between 1024 65535 := ⟨2021, defaultServerPort_mem⟩

/-- `DEFAULT_GUI_PORT`, between the same limits. -/
def defaultGuiPort : Between 1024 65535 := ⟨20210, defaultGuiPort_mem⟩

/-- `DEFAULT_GUI_SERVER`. -/
def defaultGuiServer : List Byte := ascii "localhost"

/-- A `std::string` as constructed. -/
def emptyName : PlayerName := ⟨[], rfl⟩

/-! ## Parsing -/

/-- The check of the player's name. -/
def readName (_ : Byte) (value : List Byte) : Except (List Byte) PlayerName :=
  if h : isValidPlayerName value = true then .ok ⟨value, h⟩
  else .error (ascii "invalid player_name parameter value")

/-- `ClientConfig::ClientConfig`. -/
def ofParams (server : List Byte) (params : Params) : Except (List Byte) ClientConfig := do
  let serverPort ← params.valueOr (byteOf 'p') defaultServerPort
    (optionalParamValueToUint uint16 1024 65535)
  let guiPort ← params.valueOr (byteOf 'r') defaultGuiPort (optionalParamValueToUint uint16 1024 65535)
  let playerName ← params.valueOr (byteOf 'n') emptyName readName
  let guiServer ← params.valueOr (byteOf 'i') defaultGuiServer fun _ value => .ok value
  return {
    playerName := playerName
    serverPort := serverPort, serverPort_mem := serverPort.property
    guiServer := guiServer
    guiPort := guiPort, guiPort_mem := guiPort.property
    gameServer := server }

/-- The options that are accepted. -/
def accepted : List Byte := ascii "npir"

/-- `parseCmdParams`, of the arguments after the name of the program. -/
def parseCmdParams (args : List (List Byte)) : Except (List Byte) ClientConfig := do
  let (params, positional) ← parseCmdParameters accepted args
  match positional with
  | [] => .error (ascii "missing required game_server parameter")
  | [server] => ofParams server params
  | _ :: _ :: _ => .error (ascii "too many positional parameters passed")

/-- What options and the other parameter ask for. -/
structure Describes (options : List (Byte × List Byte)) (server : List Byte) (o : ClientConfig) :
    Prop where
  serverPort : Says 2021 o.serverPort (lastValue (byteOf 'p') options)
  guiPort : Says 20210 o.guiPort (lastValue (byteOf 'r') options)
  playerName : o.playerName.val = (lastValue (byteOf 'n') options).getD []
  guiServer : o.guiServer = (lastValue (byteOf 'i') options).getD (ascii "localhost")
  gameServer : o.gameServer = server

/-- The errors that do not name an option or a parameter. -/
def complaints : List (List Byte) :=
  [ascii "missing required game_server parameter", ascii "too many positional parameters passed",
    ascii "invalid player_name parameter value"]

variable {args : List (List Byte)} {params : Params} {o : ClientConfig} {server : List Byte}
  {options : List (Byte × List Byte)} {e : List Byte}

theorem name_eq_ok {name : PlayerName} : params.valueOr (byteOf 'n') emptyName readName = .ok name ↔
    name.val = (params.find? (byteOf 'n')).getD [] := by
  rw [Params.valueOr]
  split
  · rename_i hnone
    rw [hnone, Except.ok.injEq, Subtype.ext_iff, eq_comm]
    rfl
  · rename_i value hvalue
    rw [hvalue, readName, Option.getD_some]
    split
    · rw [Except.ok.injEq, Subtype.ext_iff, eq_comm]
    · rename_i hinvalid
      refine iff_of_false (fun h => by cases h) ?_
      rintro rfl
      exact hinvalid name.property

theorem guiServer_eq_ok {guiServer : List Byte} :
    params.valueOr (byteOf 'i') defaultGuiServer (fun _ value => .ok value) = .ok guiServer ↔
      guiServer = (params.find? (byteOf 'i')).getD (ascii "localhost") := by
  rw [Params.valueOr]
  split
  · rename_i hnone
    rw [hnone, Except.ok.injEq, eq_comm]
    rfl
  · rename_i value hvalue
    rw [hvalue, Except.ok.injEq, eq_comm]
    rfl

/-- **The configuration** that the values of options give. -/
theorem ofParams_eq_ok (hparams : ∀ c, params.find? c = lastValue c options) :
    ofParams server params = .ok o ↔ Describes options server o := by
  have hserverPort := fun n =>
    @valueOr_eq_ok uint16 1024 65535 (byteOf 'p') params (by decide) defaultServerPort n
  have hguiPort := fun n =>
    @valueOr_eq_ok uint16 1024 65535 (byteOf 'r') params (by decide) defaultGuiPort n
  rw [ofParams]
  simp only [Except.bind_eq_ok, hserverPort, hguiPort, name_eq_ok, guiServer_eq_ok, hparams]
  constructor
  · rintro ⟨serverPort, hserverPort, guiPort, hguiPort, name, hname, guiServer, hguiServer, ho⟩
    obtain rfl := Except.ok.inj ho
    exact ⟨hserverPort, hguiPort, hname, hguiServer, rfl⟩
  · intro h
    obtain rfl := h.gameServer
    exact ⟨⟨o.serverPort, o.serverPort_mem⟩, h.serverPort, ⟨o.guiPort, o.guiPort_mem⟩, h.guiPort,
      o.playerName, h.playerName, o.guiServer, h.guiServer, rfl⟩

theorem parseCmdParams_eq_ok : parseCmdParams args = .ok o ↔ ∃ options server,
    Spells dash accepted args ⟨options, [server]⟩ ∧ Describes options server o := by
  rw [parseCmdParams, Except.bind_eq_ok]
  constructor
  · rintro ⟨⟨params, positional⟩, hparsed, ho⟩
    rcases positional with _ | ⟨server, _ | ⟨other, positional⟩⟩
    · cases ho
    · obtain ⟨options, hspells, hparams⟩ := (parseCmdParameters_eq_ok (by decide)).mp hparsed
      exact ⟨options, server, hspells, (ofParams_eq_ok hparams).mp ho⟩
    · cases ho
  · rintro ⟨options, server, hspells, hdescribes⟩
    let params := options.foldl (fun params o => params.set o.1 o.2) (∅ : Params)
    have hparams : ∀ c, params.find? c = lastValue c options := find?_foldl_set options
    exact ⟨(params, [server]), (parseCmdParameters_eq_ok (by decide)).mpr ⟨options, hspells, hparams⟩,
      (ofParams_eq_ok hparams).mpr hdescribes⟩

theorem blames_of_ofParams (hspells : Spells dash accepted args ⟨options, [server]⟩)
    (hparams : ∀ c, params.find? c = lastValue c options) (h : ofParams server params = .error e) :
    Blames args e ∨ e ∈ complaints := by
  have huint : ∀ {T : UintType} {minValue maxValue : ℕ} {c : Byte} {default},
      params.valueOr c default (optionalParamValueToUint T minValue maxValue) = .error e →
        Blames args e ∨ e ∈ complaints :=
    fun h => Or.inl
      (blames_of_valueOr (fun _ _ => optionalParamValueToUint_eq_error) hspells hparams h)
  rw [ofParams] at h
  rcases Except.bind_eq_error.mp h with h | ⟨_, -, h⟩
  · exact huint h
  rcases Except.bind_eq_error.mp h with h | ⟨_, -, h⟩
  · exact huint h
  rcases Except.bind_eq_error.mp h with h | ⟨_, -, h⟩
  · obtain ⟨value, -, he⟩ := exists_of_valueOr h
    rw [readName] at he
    split at he
    · cases he
    · exact Or.inr (Except.error.inj he ▸ List.mem_cons_of_mem _ (List.mem_cons_of_mem _
        List.mem_cons_self))
  rcases Except.bind_eq_error.mp h with h | ⟨_, -, h⟩
  · obtain ⟨value, -, he⟩ := exists_of_valueOr h
    cases he
  · cases h

theorem blames_of_parseCmdParams (h : parseCmdParams args = .error e) :
    Blames args e ∨ e ∈ complaints := by
  rw [parseCmdParams] at h
  rcases Except.bind_eq_error.mp h with h | ⟨⟨params, positional⟩, hparsed, h⟩
  · exact Or.inl (blames_of_parseCmdParameters h)
  · obtain ⟨options, hspells, hparams⟩ := (parseCmdParameters_eq_ok (by decide)).mp hparsed
    rcases positional with _ | ⟨server, _ | ⟨other, positional⟩⟩
    · exact Or.inr (Except.error.inj h ▸ List.mem_cons_self)
    · exact blames_of_ofParams hspells hparams h
    · exact Or.inr (Except.error.inj h ▸ List.mem_cons_of_mem _ List.mem_cons_self)

/-- **Which command lines are accepted, and what they mean.** Errors name what is wrong, or are one
of three texts. -/
theorem clientConfig_exact (args : List (List Byte)) :
    (∀ o, parseCmdParams args = .ok o ↔ ∃ options server,
      Spells dash accepted args ⟨options, [server]⟩ ∧ Describes options server o) ∧
    ∀ e, parseCmdParams args = .error e → Blames args e ∨ e ∈ complaints :=
  ⟨fun _ => parseCmdParams_eq_ok, fun _ => blames_of_parseCmdParams⟩

/-! ## Everything can be asked for -/

/-- The options that ask for a configuration. -/
def spelled (o : ClientConfig) : List (Byte × List Byte) :=
  [(byteOf 'n', o.playerName.val), (byteOf 'p', decimal o.serverPort), (byteOf 'i', o.guiServer),
    (byteOf 'r', decimal o.guiPort)]

/-- **Every configuration can be asked for**, with the options in any order and the game server
anywhere between them. -/
theorem clientConfig_of_perm (hperm : options.Perm o.spelled)
    (hspells : Spells dash accepted args ⟨options, [o.gameServer]⟩) :
    parseCmdParams args = .ok o := by
  have hnodup : (options.map Prod.fst).Nodup := by
    rw [(hperm.map Prod.fst).nodup_iff]
    show [byteOf 'n', byteOf 'p', byteOf 'i', byteOf 'r'].Nodup
    decide
  have hlast : ∀ {c : Byte} {value : List Byte}, (c, value) ∈ o.spelled →
      lastValue c options = some value := fun hmem =>
    (lastValue_eq_some_iff hnodup).mpr (hperm.mem_iff.mpr hmem)
  have hsays : ∀ {c : Byte} {n default : ℕ}, (c, decimal n) ∈ o.spelled →
      Says default n (lastValue c options) := fun hmem => by
    rw [hlast hmem]
    exact ⟨isNonNegativeNumber_decimal _, valueOf_decimal _⟩
  have hname : (byteOf 'n', o.playerName.val) ∈ o.spelled := by simp [spelled]
  have hguiServer : (byteOf 'i', o.guiServer) ∈ o.spelled := by simp [spelled]
  refine parseCmdParams_eq_ok.mpr ⟨options, o.gameServer, hspells, ?_⟩
  exact {
    serverPort := hsays (by simp [spelled])
    guiPort := hsays (by simp [spelled])
    playerName := by rw [hlast hname, Option.getD_some]
    guiServer := by rw [hlast hguiServer, Option.getD_some]
    gameServer := rfl }

theorem port_mem_1024 : 1024 ≤ 1024 ∧ 1024 ≤ 65535 := by decide

/-- A client without a name, and a server whose name looks like an option. -/
theorem clientConfig_of_perm_empty : ∃ o : ClientConfig, o.playerName = emptyName ∧
    o.gameServer = ascii "-x" ∧ parseCmdParams [ascii "-r1024", ascii "-n", ascii "", ascii "-i",
      ascii "-i", ascii "-p1024", ascii "--", ascii "-x"] = .ok o := by
  let o : ClientConfig :=
    ⟨emptyName, 1024, ascii "-i", 1024, ascii "-x", port_mem_1024, port_mem_1024⟩
  let options : List (Byte × List Byte) := [(byteOf 'r', decimal 1024), (byteOf 'n', []),
    (byteOf 'i', ascii "-i"), (byteOf 'p', decimal 1024)]
  have hperm : options.Perm o.spelled := by decide
  have hspells : Spells dash accepted [ascii "-r1024", ascii "-n", ascii "", ascii "-i", ascii "-i",
      ascii "-p1024", ascii "--", ascii "-x"] ⟨options, [o.gameServer]⟩ :=
    (scan_eq_ok_iff (by decide)).mp (by decide +kernel)
  exact ⟨o, rfl, rfl, clientConfig_of_perm hperm hspells⟩

end ClientConfig

end ScreenWorms
