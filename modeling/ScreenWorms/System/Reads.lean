import ScreenWorms.Client.GuiText
import ScreenWorms.System.System

/-!
# What the graphical interfaces read

A graphical interface gets bytes, cut anywhere, and reads lines. What the clients write for the games
of the server is read as it was meant: every line is correct, and says what one event of a game
means. Names take the place of numbers, and nothing has to be read between games.

## Main definitions

* `EventLog.messages` — a game, as the interfaces are to be told of it
* `ClientNode.Reads` — what a graphical interface has read

## Main results

* `system_reads` — what the graphical interfaces have read
-/

namespace ScreenWorms

open Machine Client

/-! ## Games as messages -/

/-- The messages of a game. -/
def EventLog.messages (log : EventLog) : List GuiMessage := log.events.filterMap (messageOf log.names)

variable {log : EventLog} {logs : List EventLog} {saved : List (ℕ × GameEventVariant)}

/-- The first lines of a log are its first messages. -/
theorem flatten_of_prefix {playerNames : SortedMap ℕ PlayerName} :
    ∀ {events : List ReceivedEvent} {lines : List (List Byte)},
      lines.map some <+: events.map (fun e => eventToMessageForGui e playerNames) →
      ∃ messages, messages <+: events.filterMap (messageOf playerNames) ∧
        lines.flatten = streamOf messages
  | _, [], _ => ⟨[], List.nil_prefix, rfl⟩
  | [], line :: lines, h => absurd (List.prefix_nil.mp h) (List.cons_ne_nil _ _)
  | e :: events, line :: lines, h => by
    obtain ⟨hline, hlines⟩ := List.cons_prefix_cons.mp h
    obtain ⟨messages, hmessages, hflatten⟩ := flatten_of_prefix hlines
    have hfirst := eventToMessageForGui_eq hline.symm
    refine ⟨(messageOf playerNames e).toList ++ messages, ?_, ?_⟩
    · rcases hmessage : messageOf playerNames e with _ | m
      · rw [List.filterMap_cons_none hmessage]
        exact hmessages
      · rw [List.filterMap_cons_some hmessage]
        exact List.cons_prefix_cons.mpr ⟨rfl, hmessages⟩
    · rw [List.flatten_cons, hfirst, hflatten, streamOf, streamOf, streamOf, List.flatMap_append]

/-- The first event of a game, as a client validates it. -/
theorem EventLog.two_le (log : EventLog) : 2 ≤ log.names.size := by
  have hvalid := log.valid ⟨0, some (.newGame log.newGame)⟩ List.mem_cons_self
  simp only [validEvent, log.parsed, ne_eq, not_true_eq_false, decide_false, Bool.false_or,
    Bool.not_eq_true', decide_eq_false_iff_not, not_lt] at hvalid
  exact hvalid

/-- The names of a game are in alphabetical order, and were registered. -/
theorem History.named (hlogs : History saved logs) (hsaved : Encodable saved) (hlog : log ∈ logs) :
    ∃ names : List PlayerName, log.names = numberNames names ∧ names.Pairwise (· < ·) ∧
      2 ≤ names.length ∧ names.length < 2 ^ 8 ∧ ∀ name ∈ names, name.val ≠ [] := by
  have hfirst : (withNumbers (logOf log.gameId saved))[0]? =
      some ⟨0, some (.newGame log.newGame)⟩ := by
    rw [← hlogs.events log hlog]
    rfl
  rw [getElem?_withNumbers, Option.map_eq_some_iff] at hfirst
  obtain ⟨event, hevent, heq⟩ := hfirst
  obtain rfl : event = .newGame log.newGame := Option.some.inj (congrArg ReceivedEvent.eventData heq)
  obtain ⟨x, hx, hdata⟩ := List.mem_map.mp (List.mem_of_getElem? hevent)
  have hbuilt := (hsaved x (List.mem_of_mem_filter hx)).2
  rw [hdata] at hbuilt
  obtain ⟨-, names, hmap, hsorted, hnames⟩ := parsedPlayers_eq_ok.mp log.parsed
  generalize log.newGame = newGame at hbuilt hmap
  cases hbuilt with
  | @newGame maxx maxy registered hx hy hne hle hnonempty =>
    rw [players_ofNames_eq_flatMap, namesIn_flatMap hnonempty] at hmap
    obtain rfl := List.map_injective_iff.mpr Subtype.val_injective hmap
    have hlength : names.length < 2 ^ 8 := hle.trans_lt (by decide)
    have htwo := log.two_le
    rw [hnames, size_numberNames hlength.le] at htwo
    exact ⟨names, hnames, hsorted, htwo, hlength, hnonempty⟩

/-- A message of a game with these settings, after its first. -/
def GuiMessage.Within (maxx maxy : ℕ) (names : List PlayerName) : GuiMessage → Prop
  | newGame _ _ _ => False
  | pixel x y name => x < maxx ∧ y < maxy ∧ name ∈ names
  | playerEliminated name => name ∈ names

/-- The messages of one game: its settings, and then what is possible with them. -/
def IsGame (messages : List GuiMessage) : Prop :=
  ∃ maxx maxy names later, messages = .newGame maxx maxy names :: later ∧ 2 ≤ names.length ∧
    names.Pairwise (· < ·) ∧ ∀ m ∈ later, m.Within maxx maxy names

/-- An event after the first. -/
theorem EventLog.within {names : List PlayerName} (hnames : log.names = numberNames names)
    (hlength : names.length < 2 ^ 8) {e : ReceivedEvent} (he : e ∈ log.events)
    (hno : e.eventNo ≠ 0) {m : GuiMessage} (hm : messageOf log.names e = some m) :
    m.Within log.newGame.maxx log.newGame.maxy names := by
  have hfind : ∀ {no : ℕ} {name : PlayerName}, log.names.find? no = some name → name ∈ names := by
    intro no name hname
    rw [hnames, find?_numberNames hlength.le] at hname
    exact List.mem_of_getElem? hname
  have hvalid := log.valid e he
  rw [validEvent] at hvalid
  rw [messageOf] at hm
  split at hm
  · rename_i newGame hdata
    exact absurd (log.eq_newGame he hdata).1 hno
  · rename_i pixel hdata
    obtain ⟨name, hname, rfl⟩ := Option.map_eq_some_iff.mp hm
    rw [hdata] at hvalid
    simp only [Bool.not_eq_true', Bool.or_eq_false_iff, decide_eq_false_iff_not, not_le] at hvalid
    exact ⟨hvalid.1.2, hvalid.2, hfind hname⟩
  · obtain ⟨name, hname, rfl⟩ := Option.map_eq_some_iff.mp hm
    exact hfind hname
  · cases hm

/-- **The messages of a game** are its settings and what is possible with them. -/
theorem History.isGame (hlogs : History saved logs) (hsaved : Encodable saved) (hlog : log ∈ logs) :
    IsGame log.messages := by
  obtain ⟨names, hnames, hsorted, htwo, hlength, -⟩ := hlogs.named hsaved hlog
  let later : List ReceivedEvent := (log.later.zipIdx 1).map fun p => ⟨p.2, some p.1⟩
  have hevents : log.events = ⟨0, some (.newGame log.newGame)⟩ :: later := rfl
  have hfirst : messageOf log.names ⟨0, some (.newGame log.newGame)⟩ =
      some (.newGame log.newGame.maxx log.newGame.maxy names) := by
    rw [messageOf, hnames, namesListed_numberNames hlength]
  refine ⟨log.newGame.maxx, log.newGame.maxy, names, later.filterMap (messageOf log.names), ?_, htwo,
    hsorted, fun m hm => ?_⟩
  · rw [EventLog.messages, hevents, List.filterMap_cons_some hfirst]
  · obtain ⟨e, he, hmessage⟩ := List.mem_filterMap.mp hm
    have hmem : e ∈ log.events := hevents ▸ List.mem_cons_of_mem _ he
    obtain ⟨p, hp, rfl⟩ := List.mem_map.mp he
    have hno := List.le_snd_of_mem_zipIdx hp
    exact log.within hnames hlength hmem (Nat.one_le_iff_ne_zero.mp hno) hmessage

/-- The messages of a game can be read. -/
theorem History.wellFormed (hlogs : History saved logs) (hsaved : Encodable saved)
    (hlog : log ∈ logs) : ∀ m ∈ log.messages, m.WellFormed := by
  intro m hm
  obtain ⟨e, -, hmessage⟩ := List.mem_filterMap.mp hm
  obtain ⟨names, hnames, -, htwo, hlength, hnonempty⟩ := hlogs.named hsaved hlog
  rw [hnames] at hmessage
  exact wellFormed_messageOf (List.ne_nil_of_length_pos (by omega)) hnonempty hlength hmessage

/-! ## What is read -/

/-- Where a list of parts is cut. -/
theorem exists_of_prefix_flatMap {α β : Type} : ∀ {parts : List (α × List β)} {l : List β},
    l <+: parts.flatMap Prod.snd → ∃ cut : List (α × List β), l = cut.flatMap Prod.snd ∧
      cut.map Prod.fst <+: parts.map Prod.fst ∧ ∀ x ∈ cut, ∃ y ∈ parts, x.1 = y.1 ∧ x.2 <+: y.2
  | [], l, h => ⟨[], List.prefix_nil.mp h, List.nil_prefix, fun x hx => absurd hx List.not_mem_nil⟩
  | part :: parts, l, ⟨rest, h⟩ => by
    rcases List.append_eq_append_iff.mp h with ⟨tail, htail, -⟩ | ⟨tail, rfl, htail⟩
    · -- The cut is in the first part.
      refine ⟨[(part.1, l)], (List.append_nil l).symm,
        List.cons_prefix_cons.mpr ⟨rfl, List.nil_prefix⟩, fun x hx => ?_⟩
      rw [List.mem_singleton.mp hx]
      exact ⟨part, List.mem_cons_self, rfl, tail, htail.symm⟩
    · obtain ⟨cut, rfl, hids, hcut⟩ := exists_of_prefix_flatMap ⟨rest, htail.symm⟩
      refine ⟨part :: cut, rfl, List.cons_prefix_cons.mpr ⟨rfl, hids⟩, fun x hx => ?_⟩
      rcases List.mem_cons.mp hx with rfl | hx
      · exact ⟨x, List.mem_cons_self, rfl, List.prefix_rfl⟩
      · obtain ⟨y, hy, hxy⟩ := hcut x hx
        exact ⟨y, List.mem_cons_of_mem _ hy, hxy⟩

/-- The graphical interface has read the first messages of some games, one game after another. -/
def ClientNode.Reads (logs : List EventLog) (n : ClientNode) : Prop :=
  ∃ parts : List (EventLog × List GuiMessage),
    (∀ x ∈ parts, x.1 ∈ logs ∧ x.2 <+: x.1.messages) ∧
    (parts.map fun x => x.1.gameId).Nodup ∧
    guiReads n.gui.written = (parts.flatMap Prod.snd).map some

/-- The games that are displayed, as messages. -/
theorem exists_told : ∀ {parts : List (EventLog × List (List Byte))},
    (∀ x ∈ parts, x.2.map some <+: x.1.rendered) → ∃ told : List (EventLog × List GuiMessage),
      told.map Prod.fst = parts.map Prod.fst ∧ (∀ x ∈ told, x.2 <+: x.1.messages) ∧
        (parts.flatMap Prod.snd).flatten = streamOf (told.flatMap Prod.snd)
  | [], _ => ⟨[], rfl, fun x hx => absurd hx List.not_mem_nil, rfl⟩
  | part :: parts, h => by
    obtain ⟨messages, hmessages, hflatten⟩ := flatten_of_prefix (h part List.mem_cons_self)
    obtain ⟨told, hlogs, htold, hrest⟩ := exists_told fun x hx => h x (List.mem_cons_of_mem _ hx)
    refine ⟨(part.1, messages) :: told, congrArg (part.1 :: ·) hlogs,
      List.forall_mem_cons.mpr ⟨hmessages, htold⟩, ?_⟩
    rw [List.flatMap_cons, List.flatten_append, hflatten, hrest, List.flatMap_cons, streamOf, streamOf,
      streamOf, List.flatMap_append]

/-- What is displayed is read. -/
theorem ClientNode.Displays.reads {n : ClientNode} (h : n.Displays logs)
    (hall : ∀ log ∈ logs, ∀ m ∈ log.messages, m.WellFormed) : n.Reads logs := by
  obtain ⟨parts, hparts, hids, hwritten⟩ := h
  obtain ⟨told, hfst, htold, hstream⟩ := exists_told fun x hx => (hparts x hx).2
  have hlogs : ∀ x ∈ told, x.1 ∈ logs := fun x hx => by
    have hmem : x.1 ∈ parts.map Prod.fst := hfst ▸ List.mem_map_of_mem hx
    obtain ⟨y, hy, hxy⟩ := List.mem_map.mp hmem
    exact hxy ▸ (hparts y hy).1
  have hgood : ∀ m ∈ told.flatMap Prod.snd, m.WellFormed := fun m hm => by
    obtain ⟨x, hx, hm⟩ := List.mem_flatMap.mp hm
    exact hall x.1 (hlogs x hx) m ((htold x hx).subset hm)
  obtain ⟨read, hread, hreads⟩ := guiReads_of_prefix hgood ⟨_, hwritten.trans hstream⟩
  obtain ⟨cut, rfl, hcutids, hcut⟩ := exists_of_prefix_flatMap hread
  refine ⟨cut, fun x hx => ?_, ?_, hreads⟩
  · obtain ⟨y, hy, hxy, hprefix⟩ := hcut x hx
    rw [hxy]
    exact ⟨hlogs y hy, hprefix.trans (htold y hy)⟩
  · have hprefix := hcutids.map EventLog.gameId
    rw [hfst, List.map_map, List.map_map] at hprefix
    exact hprefix.sublist.nodup hids

variable {D : Type} {pf : Platform D} {w₀ w : System D} {tr : List (System D × SystemOp)}

/-- **What the graphical interfaces have read.** As long as the datagrams are harmless, each
interface has read first messages of the server's games, one game after another. Every line it got
was correct, and every game is announced before anything happens in it, to its players, and on its
board. -/
theorem system_reads (hpf : pf.Centred) (hinit : (system pf).init w₀)
    (hrun : (system pf).Run w₀ tr w)
    (hids : DistinctIds (unsetIdOf w₀) (startedIds (savedBy pf w₀ tr)))
    (htakes : ∀ x ∈ deliveries tr, Takes x.2 x.1) :
    ∃ logs, History (savedBy pf w₀ tr) logs ∧ (∀ log ∈ logs, IsGame log.messages) ∧
      ∀ i n, w.nodes i = some n → n.Reads logs := by
  obtain ⟨logs, hlogs, hall⟩ := watches_of_run hpf hinit hrun hids htakes
  obtain ⟨⟨config, unsetId, unsetAlive, hhub⟩, -⟩ := hinit
  have hserver : (serverMachine pf).Run w₀.hub (hubTrace tr) w.hub := Run.hub hrun
  rw [hhub] at hserver
  have hsaved : Encodable (savedBy pf w₀ tr) := by
    rw [savedBy, hhub]
    exact Server.encodable_saved hpf hserver
  refine ⟨logs, hlogs, fun log hlog => hlogs.isGame hsaved hlog, fun i n hn => ?_⟩
  obtain ⟨hwatches, hreach⟩ := hall i n hn
  exact (hwatches.displays hreach).reads fun log hlog => hlogs.wellFormed hsaved hlog

/-- The first client's interface has read the first events of the game. -/
theorem system_reads_two : ∃ tr w, (system fixedPoint).Run emptySystem tr w ∧
    tr.map Prod.snd = twoClients ∧ ∃ logs, History (savedBy fixedPoint emptySystem tr) logs ∧
    (∀ log ∈ logs, IsGame log.messages) ∧ ∀ n ∈ w.nodes [1], n.Reads logs ∧ guiReads n.gui.written =
      [some (.newGame 16 16 [⟨[97], isValidPlayerName_a⟩, ⟨[98], isValidPlayerName_b⟩]),
        some (.pixel 5 8 ⟨[97], isValidPlayerName_a⟩),
        some (.pixel 5 14 ⟨[98], isValidPlayerName_b⟩)] := by
  obtain ⟨tr, w, hinit, hrun, hops, hids, hnew, hwritten⟩ := exists_run_twoClients
  obtain ⟨logs, hlogs, hgames, hall⟩ := system_reads fixedPoint_centred hinit hrun hids
    fun x hx => takes_of_initial (hnew x hx)
  refine ⟨tr, w, hrun, hops, logs, hlogs, hgames, fun n hn => ⟨hall [1] n hn, ?_⟩⟩
  rw [hwritten n hn]
  decide +kernel

end ScreenWorms
