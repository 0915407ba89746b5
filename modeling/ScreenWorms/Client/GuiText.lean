import ScreenWorms.Client.Lines
import ScreenWorms.Common.NameFields
import ScreenWorms.Common.Sockets
import ScreenWorms.Common.Text

/-!
# What the graphical interface reads

`GuiMessage` is what the interface is told, and `ofLine` how it reads a line: the fields are
separated by single blanks, numbers are decimal, and names have 1 to 20 visible characters. The lines
that `eventToMessageForGui` writes are read as the messages they stand for, however the stream has
been cut.

## Main definitions

* `GuiMessage`, `GuiMessage.line`, `GuiMessage.ofLine`
* `messageOf` — what an event means for the interface
* `guiReads` — the messages in a stream

## Main results

* `ofLine_line`, `wellFormed_of_ofLine` — messages are read as they were, and only good ones
* `eventToMessageForGui_eq` — what is written for an event is its message
* `guiReads_of_prefix` — what is read of a stream so far
-/

namespace ScreenWorms

open TcpSocket

/-- `' '`. -/
def blank : Byte := 32

/-- What the interface is told. -/
inductive GuiMessage
  | newGame (maxx maxy : ℕ) (names : List PlayerName)
  | pixel (x y : ℕ) (name : PlayerName)
  | playerEliminated (name : PlayerName)
deriving DecidableEq

namespace GuiMessage

/-- The fields of its line. -/
def fields : GuiMessage → List (List Byte)
  | newGame maxx maxy names =>
    ascii "NEW_GAME" :: decimal maxx :: decimal maxy :: names.map Subtype.val
  | pixel x y name => [ascii "PIXEL", decimal x, decimal y, name.val]
  | playerEliminated name => [ascii "PLAYER_ELIMINATED", name.val]

/-- Its line, without the newline. -/
def line (m : GuiMessage) : List Byte := [blank].intercalate m.fields

/-- A name, which has at least one character. -/
def nameOf (field : List Byte) : Option PlayerName :=
  if h : isValidPlayerName field = true ∧ field ≠ [] then some ⟨field, h.1⟩ else none

/-- A number. -/
def numberOf (field : List Byte) : Option ℕ :=
  if isNonNegativeNumber field then some (valueOf field) else none

/-- The message with these fields. -/
def ofFields : List (List Byte) → Option GuiMessage
  | [] => none
  | keyword :: values =>
    if keyword = ascii "NEW_GAME" then
      match values with
      | maxx :: maxy :: name :: names => do
        return newGame (← numberOf maxx) (← numberOf maxy) (← (name :: names).mapM nameOf)
      | _ => none
    else if keyword = ascii "PIXEL" then
      match values with
      | [x, y, name] => do return pixel (← numberOf x) (← numberOf y) (← nameOf name)
      | _ => none
    else if keyword = ascii "PLAYER_ELIMINATED" then
      match values with
      | [name] => do return playerEliminated (← nameOf name)
      | _ => none
    else none

/-- The message in a line, if the line is correct. -/
def ofLine (line : List Byte) : Option GuiMessage := ofFields (line.splitOn blank)

/-- The names in it. -/
def names : GuiMessage → List PlayerName
  | newGame _ _ names => names
  | pixel _ _ name => [name]
  | playerEliminated name => [name]

/-- There is a name, and all names have characters. -/
structure WellFormed (m : GuiMessage) : Prop where
  named : m.names ≠ []
  nonempty : ∀ name ∈ m.names, name.val ≠ []

variable {m : GuiMessage}

/-! ## Fields -/

theorem numberOf_decimal (n : ℕ) : numberOf (decimal n) = some n := by
  rw [numberOf, if_pos (isNonNegativeNumber_decimal n), valueOf_decimal]

theorem nameOf_val {name : PlayerName} (h : name.val ≠ []) : nameOf name.val = some name :=
  dif_pos ⟨name.property, h⟩

theorem ne_nil_of_nameOf {field : List Byte} {name : PlayerName} (h : nameOf field = some name) :
    name.val ≠ [] := by
  rw [nameOf] at h
  split at h
  · rename_i hfield
    rw [← Option.some.inj h]
    exact hfield.2
  · cases h

theorem mapM_nameOf : ∀ {names : List PlayerName}, (∀ name ∈ names, name.val ≠ []) →
    (names.map Subtype.val).mapM nameOf = some names
  | [], _ => rfl
  | name :: names, h => by
    rw [List.map_cons, List.mapM_cons, nameOf_val (h name List.mem_cons_self),
      mapM_nameOf fun n hn => h n (List.mem_cons_of_mem _ hn)]
    rfl

theorem ofFields_fields (h : m.WellFormed) : ofFields m.fields = some m := by
  cases m with
  | newGame maxx maxy names =>
    rcases names with _ | ⟨name, names⟩
    · exact absurd rfl h.named
    · have hnames : (name.val :: names.map Subtype.val).mapM nameOf = some (name :: names) :=
        mapM_nameOf h.nonempty
      rw [fields, List.map_cons, ofFields, if_pos rfl]
      simp only [numberOf_decimal, hnames]
      rfl
  | pixel x y name =>
    have hname := nameOf_val (h.nonempty name (List.mem_singleton_self name))
    rw [fields, ofFields, if_neg (by decide), if_pos rfl]
    simp only [numberOf_decimal, hname]
    rfl
  | playerEliminated name =>
    have hname := nameOf_val (h.nonempty name (List.mem_singleton_self name))
    rw [fields, ofFields, if_neg (by decide), if_neg (by decide), if_pos rfl]
    simp only [hname]
    rfl

/-! ## Lines -/

/-- Fields have visible characters only. -/
theorem visible_of_mem_fields {field : List Byte} (hfield : field ∈ m.fields) :
    ∀ c ∈ field, 33 ≤ c.val := by
  have hdecimal : ∀ n, ∀ c ∈ decimal n, 33 ≤ c.val := fun n c hc => by
    have hdigit := isDigit_of_mem_decimal hc
    simp only [isDigit, Bool.and_eq_true, decide_eq_true_eq] at hdigit
    omega
  have hname : ∀ name : PlayerName, ∀ c ∈ name.val, 33 ≤ c.val := fun name c hc =>
    (name.mem_range hc).1
  cases m with
  | newGame maxx maxy names =>
    simp only [fields, List.mem_cons, List.mem_map] at hfield
    rcases hfield with rfl | rfl | rfl | ⟨name, -, rfl⟩
    · decide +kernel
    · exact hdecimal maxx
    · exact hdecimal maxy
    · exact hname name
  | pixel x y name =>
    simp only [fields, List.mem_cons, List.not_mem_nil, or_false] at hfield
    rcases hfield with rfl | rfl | rfl | rfl
    · decide +kernel
    · exact hdecimal x
    · exact hdecimal y
    · exact hname name
  | playerEliminated name =>
    simp only [fields, List.mem_cons, List.not_mem_nil, or_false] at hfield
    rcases hfield with rfl | rfl
    · decide +kernel
    · exact hname name

theorem mem_intercalate {sep c : Byte} : ∀ {ls : List (List Byte)},
    c ∈ [sep].intercalate ls → c = sep ∨ ∃ l ∈ ls, c ∈ l
  | [], h => absurd h List.not_mem_nil
  | [l], h => Or.inr ⟨l, List.mem_singleton_self l, by simpa using h⟩
  | l :: l' :: ls, h => by
    rw [List.intercalate_cons_cons, List.mem_append, List.mem_append] at h
    rcases h with (h | h) | h
    · exact Or.inr ⟨l, List.mem_cons_self, h⟩
    · exact Or.inl (List.mem_singleton.mp h)
    · refine (mem_intercalate h).imp_right ?_
      rintro ⟨l'', hl'', hc⟩
      exact ⟨l'', List.mem_cons_of_mem _ hl'', hc⟩

/-- A line has no newline. -/
theorem newline_not_mem_line : newline ∉ m.line := fun h => by
  rcases mem_intercalate h with h | ⟨field, hfield, h⟩
  · exact absurd h (by decide)
  · exact absurd (visible_of_mem_fields hfield newline h) (by decide)

/-- **A message is read as it was written.** -/
theorem ofLine_line (h : m.WellFormed) : ofLine m.line = some m := by
  have hblank : ∀ field ∈ m.fields, blank ∉ field := fun field hfield hmem =>
    absurd (visible_of_mem_fields hfield blank hmem) (by decide)
  have hne : m.fields ≠ [] := by cases m <;> exact List.cons_ne_nil _ _
  rw [ofLine, line, List.splitOn_intercalate _ hblank hne, ofFields_fields h]

theorem wellFormed_of_mapM : ∀ {fields : List (List Byte)} {names : List PlayerName},
    fields.mapM nameOf = some names →
    names.length = fields.length ∧ ∀ name ∈ names, name.val ≠ []
  | [], names, h => by
    obtain rfl : [] = names := Option.some.inj h
    exact ⟨rfl, fun name hname => absurd hname List.not_mem_nil⟩
  | field :: fields, names, h => by
    rw [List.mapM_cons] at h
    obtain ⟨name, hname, h⟩ := Option.bind_eq_some_iff.mp h
    obtain ⟨rest, hrest, h⟩ := Option.bind_eq_some_iff.mp h
    obtain rfl := Option.some.inj h
    obtain ⟨hlength, hall⟩ := wellFormed_of_mapM hrest
    exact ⟨congrArg (· + 1) hlength, List.forall_mem_cons.mpr ⟨ne_nil_of_nameOf hname, hall⟩⟩

/-- **Only good messages are read.** -/
theorem wellFormed_of_ofLine {l : List Byte} (h : ofLine l = some m) : m.WellFormed := by
  rw [ofLine] at h
  generalize l.splitOn blank = words at h
  rcases words with _ | ⟨keyword, values⟩
  · cases h
  unfold ofFields at h
  simp only at h
  split at h
  · split at h
    · rename_i maxx maxy name names
      obtain ⟨x, -, h⟩ := Option.bind_eq_some_iff.mp h
      obtain ⟨y, -, h⟩ := Option.bind_eq_some_iff.mp h
      obtain ⟨players, hplayers, h⟩ := Option.bind_eq_some_iff.mp h
      obtain rfl := Option.some.inj h
      obtain ⟨hlength, hall⟩ := wellFormed_of_mapM hplayers
      exact ⟨List.ne_nil_of_length_pos (hlength ▸ Nat.succ_pos _), hall⟩
    · cases h
  split at h
  · split at h
    · obtain ⟨x, -, h⟩ := Option.bind_eq_some_iff.mp h
      obtain ⟨y, -, h⟩ := Option.bind_eq_some_iff.mp h
      obtain ⟨name, hname, h⟩ := Option.bind_eq_some_iff.mp h
      obtain rfl := Option.some.inj h
      exact ⟨List.cons_ne_nil _ _, fun n hn => List.mem_singleton.mp hn ▸ ne_nil_of_nameOf hname⟩
    · cases h
  split at h
  · split at h
    · obtain ⟨name, hname, h⟩ := Option.bind_eq_some_iff.mp h
      obtain rfl := Option.some.inj h
      exact ⟨List.cons_ne_nil _ _, fun n hn => List.mem_singleton.mp hn ▸ ne_nil_of_nameOf hname⟩
    · cases h
  · cases h

theorem line_eq {field : List Byte} {rest : List (List Byte)} (h : m.fields = field :: rest) :
    m.line = field ++ rest.flatMap (blank :: ·) := by
  rw [line, h]
  clear h
  induction rest generalizing field with
  | nil => simp
  | cons next rest ih =>
    rw [List.intercalate_cons_cons, ih, List.flatMap_cons, List.append_assoc]
    rfl

end GuiMessage

/-! ## Events -/

/-- The names that are listed, in the order of their numbers. -/
def namesListed (playerNames : SortedMap ℕ PlayerName) : List PlayerName :=
  (List.range (toUInt8 playerNames.size)).filterMap playerNames.find?

/-- What an event means for the interface. -/
def messageOf (playerNames : SortedMap ℕ PlayerName) (e : ReceivedEvent) : Option GuiMessage :=
  match e.eventData with
  | some (.newGame event) => some (.newGame event.maxx event.maxy (namesListed playerNames))
  | some (.pixel event) =>
    (playerNames.find? event.playerNumber).map (.pixel event.x event.y)
  | some (.playerEliminated event) =>
    (playerNames.find? event.playerNumber).map .playerEliminated
  | _ => none

/-- Messages as a stream. -/
def streamOf (messages : List GuiMessage) : List Byte :=
  messages.flatMap fun m => m.line ++ [newline]

variable {playerNames : SortedMap ℕ PlayerName} {e : ReceivedEvent} {bytes : List Byte}

theorem namesForGui_eq_some : ∀ {is : List ℕ} {bytes : List Byte},
    namesForGui playerNames is = some bytes →
      bytes = (is.filterMap playerNames.find?).flatMap fun name => blank :: name.val
  | [], bytes, h => (Option.some.inj h).symm
  | i :: is, bytes, h => by
    rw [namesForGui] at h
    split at h
    · cases h
    · rename_i name hname
      obtain ⟨rest, hrest, rfl⟩ := Option.map_eq_some_iff.mp h
      rw [List.filterMap_cons_some hname, List.flatMap_cons, ← namesForGui_eq_some hrest]
      rfl

/-- **What is written for an event** is its message, if it has one. -/
theorem eventToMessageForGui_eq (h : eventToMessageForGui e playerNames = some bytes) :
    bytes = streamOf (messageOf playerNames e).toList := by
  obtain ⟨no, data⟩ := e
  rcases data with _ | (event | event | event | _)
  · exact (Option.some.inj h).symm
  · obtain ⟨names, hnames, rfl⟩ := Option.map_eq_some_iff.mp h
    have hkeyword : ascii "NEW_GAME " = ascii "NEW_GAME" ++ [blank] := rfl
    show _ = streamOf [.newGame event.maxx event.maxy (namesListed playerNames)]
    rw [streamOf, List.flatMap_singleton, GuiMessage.line_eq rfl, namesForGui_eq_some hnames, hkeyword]
    simp only [List.flatMap_cons, List.flatMap_map, List.append_assoc, List.cons_append,
      List.nil_append]
    rfl
  · obtain ⟨name, hname, rfl⟩ := Option.map_eq_some_iff.mp h
    have hkeyword : ascii "PIXEL " = ascii "PIXEL" ++ [blank] := rfl
    have hmessage : messageOf playerNames ⟨no, some (.pixel event)⟩ =
        some (.pixel event.x event.y name) :=
      congrArg (Option.map (GuiMessage.pixel event.x event.y)) hname
    rw [hmessage, Option.toList_some, streamOf, List.flatMap_singleton, GuiMessage.line_eq rfl,
      hkeyword]
    simp only [List.flatMap_cons, List.flatMap_nil, List.append_assoc, List.cons_append,
      List.nil_append]
    rfl
  · obtain ⟨name, hname, rfl⟩ := Option.map_eq_some_iff.mp h
    have hkeyword : ascii "PLAYER_ELIMINATED " = ascii "PLAYER_ELIMINATED" ++ [blank] := rfl
    have hmessage : messageOf playerNames ⟨no, some (.playerEliminated event)⟩ =
        some (.playerEliminated name) :=
      congrArg (Option.map GuiMessage.playerEliminated) hname
    rw [hmessage, Option.toList_some, streamOf, List.flatMap_singleton, GuiMessage.line_eq rfl,
      hkeyword]
    simp only [List.flatMap_cons, List.flatMap_nil, List.append_assoc, List.cons_append,
      List.nil_append]
    rfl
  · exact (Option.some.inj h).symm

/-- All names are listed. -/
theorem namesListed_numberNames {names : List PlayerName} (h : names.length < 2 ^ 8) :
    namesListed (numberNames names) = names := by
  have hfind : (numberNames names).find? = fun i => names[i]? :=
    funext fun i => find?_numberNames h.le i
  rw [namesListed, size_numberNames h.le, toUInt8_of_lt h, hfind]
  clear h hfind
  induction names with
  | nil => rfl
  | cons name names ih =>
    have hfirst : (name :: names)[0]? = some name := rfl
    rw [List.length_cons, List.range_succ_eq_map, List.filterMap_cons_some hfirst,
      List.filterMap_map]
    exact congrArg (name :: ·) ih

/-- What an event of such a game means is a good message. -/
theorem wellFormed_messageOf {names : List PlayerName} (hnamed : names ≠ [])
    (hnonempty : ∀ name ∈ names, name.val ≠ []) (hlength : names.length < 2 ^ 8) {m : GuiMessage}
    (h : messageOf (numberNames names) e = some m) : m.WellFormed := by
  have hone : ∀ {no : ℕ} {name : PlayerName}, (numberNames names).find? no = some name →
      name.val ≠ [] := fun hname => by
    rw [find?_numberNames hlength.le] at hname
    exact hnonempty _ (List.mem_of_getElem? hname)
  rw [messageOf] at h
  split at h
  · obtain rfl := Option.some.inj h
    rw [namesListed_numberNames hlength]
    exact ⟨hnamed, hnonempty⟩
  · obtain ⟨name, hname, rfl⟩ := Option.map_eq_some_iff.mp h
    exact ⟨List.cons_ne_nil _ _, fun n hn => List.mem_singleton.mp hn ▸ hone hname⟩
  · obtain ⟨name, hname, rfl⟩ := Option.map_eq_some_iff.mp h
    exact ⟨List.cons_ne_nil _ _, fun n hn => List.mem_singleton.mp hn ▸ hone hname⟩
  · cases h

/-! ## Streams -/

/-- What the interface reads of a stream: the message of each complete line. -/
def guiReads (stream : List Byte) : List (Option GuiMessage) := (completeLines stream).map GuiMessage.ofLine

theorem completeLines_of_prefix : ∀ {lines : List (List Byte)} {stream : List Byte},
    (∀ line ∈ lines, newline ∉ line) → stream <+: lines.flatMap (· ++ [newline]) →
    completeLines stream <+: lines
  | [], stream, _, h => by
    rw [List.prefix_nil.mp h]
    exact List.nil_prefix
  | line :: lines, stream, hlines, h => by
    have hline := hlines line List.mem_cons_self
    rw [List.flatMap_cons, List.append_assoc] at h
    obtain ⟨rest, hrest⟩ := h
    rcases List.append_eq_append_iff.mp hrest with ⟨tail, htail, -⟩ | ⟨tail, rfl, htail⟩
    · -- The stream ends before the newline.
      rw [completeLines_of_not_mem fun hmem => hline (htail ▸ List.mem_append_left _ hmem)]
      exact List.nil_prefix
    · rcases tail with _ | ⟨c, tail⟩
      · rw [List.append_nil, completeLines_of_not_mem hline]
        exact List.nil_prefix
      · obtain ⟨rfl, hlater⟩ := List.cons.inj htail
        rw [completeLines_append_cons hline, List.prefix_cons_inj]
        exact completeLines_of_prefix (fun l hl => hlines l (List.mem_cons_of_mem _ hl))
          ⟨rest, hlater.symm⟩

/-- **What is read so far** of a stream of messages is the first of them. -/
theorem guiReads_of_prefix {messages : List GuiMessage} {stream : List Byte}
    (hall : ∀ m ∈ messages, m.WellFormed) (h : stream <+: streamOf messages) :
    ∃ read, read <+: messages ∧ guiReads stream = read.map some := by
  have hstream : streamOf messages = (messages.map GuiMessage.line).flatMap (· ++ [newline]) := by
    rw [streamOf, List.flatMap_map]
  have hlines : completeLines stream <+: messages.map GuiMessage.line := by
    refine completeLines_of_prefix (fun l hl => ?_) (hstream ▸ h)
    obtain ⟨m, -, rfl⟩ := List.mem_map.mp hl
    exact GuiMessage.newline_not_mem_line
  obtain ⟨read, hread, heq⟩ := List.prefix_map_iff.mp hlines
  refine ⟨read, hread, ?_⟩
  rw [guiReads, heq, List.map_map]
  exact List.map_congr_left fun m hm => GuiMessage.ofLine_line (hall m (hread.subset hm))

end ScreenWorms
