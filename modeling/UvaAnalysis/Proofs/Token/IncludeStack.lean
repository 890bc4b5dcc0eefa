import Mathlib.Data.List.Infix
import UvaAnalysis.Proofs.Token.Directives

/-!
# The stack of an expansion

An expansion is taken apart into moments.  At each moment some files are being expanded, one inside
the other, and the next item of the innermost one is dealt with: a token is kept, a directive is
refused, or a file is read and, if it can be, opened on top of the others.  At its end an included
file is closed.  `Moment.next?` says which of these happens by the paths on the stack alone, and it
sets no bound to the number of moments.

Still this comes to an end, namely to what the recursive expansion gives (`runsOn_finished`): each
item is dealt with, by an induction on the room that is left, and the files that were opened for it
are closed again (`Returns`).  Since a step leaves no choice (`Runs.exists_rest`), every run is a
part of that one.  What holds of the stack at first and is kept by each step then holds at all
moments of the expansion (`Guarded`).
-/

namespace UvaAnalysis

namespace Token

/-- All faults in the bytes of a file are lexical. -/
lemma eq_lexical_of_mem_faults {origin : Path} {source : List UInt8} {fault : Fault}
    (h : fault ∈ (tokenize origin source).faults) :
    ∃ position cause, fault = .lexical origin position cause := by
  have hscan (skip : ℕ) (position : Position) (bytes : List UInt8) :
      ∀ fault ∈ (scan origin skip position bytes).faults,
        ∃ position cause, fault = .lexical origin position cause := by
    fun_induction scan origin skip position bytes with
    | case1 => simp
    | case2 _ _ _ _ ih => exact ih
    | case3 _ _ _ _ _ ih => exact ih
    | case4 _ _ _ _ _ _ _ _ _ ih => exact ih
    | case5 position byte rest cause hpiece => simp
  exact hscan 0 .start source fault h

/-! ### Moments -/

/-- A file that is being expanded, and its items that are still to come. -/
structure Frame where
  file : Path
  items : List Item

/-- A moment of an expansion: the file that is at hand, the files that it is included in, the
innermost first, and what has come of the stream so far. -/
structure Moment where
  innermost : Frame
  outer : List Frame
  made : Salvage (List Token)

/-- What happens at a moment. -/
inductive Event where
  | kept (t : Token)
  /-- A directive is refused without reading a file. -/
  | refused (fault : Fault)
  | read (path : Path) (outcome : Except FileError (List UInt8))
  /-- An included file has come to its end. -/
  | closed

namespace Event

/-- What an event adds to what has come of the stream. -/
def adds : Event → Salvage (List Token)
  | .kept t => ⟨[t], []⟩
  | .refused fault => ⟨[], [fault]⟩
  | .read path (.error cause) => ⟨[], [.includeUnreadable path cause]⟩
  | .read path (.ok source) => ⟨[], (tokenize path source).faults⟩
  | .closed => ⟨[], []⟩

/-- The file that is opened at an event, with its items. -/
def opened? : Event → Option Frame
  | .read path (.ok source) => some ⟨path, Item.ofTokens (tokenize path source).value⟩
  | _ => none

end Event

/-- What happens to an item while the files on `stack` are being expanded. -/
def Item.event (files : Files) (stack : List Path) : Item → Event
  | .token t => .kept t
  | .inclusion directive target =>
    let path := includedPath directive target
    if stack.any (·.sameAs path) then .refused (.includeCycle path)
    else if includeLimit < stack.length then .refused (.includeTooDeep path)
    else .read path (files.read path)
  | .includeWithoutPath directive => .refused (.includeWithoutPath directive)
  | .unknown directive => .refused (.unknownDirective directive)

/-- The file that an item includes. -/
def Item.included? : Item → Option Path
  | .inclusion directive target => some (includedPath directive target)
  | _ => none

namespace Moment

/-- The files that are being expanded, the innermost first. -/
def stack (m : Moment) : List Path :=
  (m.innermost :: m.outer).map Frame.file

/-- The first moment of the expansion of a stream that belongs to the file `primary`. -/
def start (primary : Path) (tokens : List Token) : Moment :=
  ⟨⟨primary.normalize, Item.ofTokens tokens⟩, [], ⟨[], []⟩⟩

/-- The moment with the same files at which `items` are still to come of the innermost one, and
`added` has come since. -/
def later (m : Moment) (items : List Item) (added : Salvage (List Token)) : Moment :=
  ⟨⟨m.innermost.file, items⟩, m.outer, m.made ++ added⟩

/-- The moment at which a file is opened on top of the others. -/
def opening (m : Moment) (frame : Frame) : Moment :=
  ⟨frame, m.innermost :: m.outer, m.made⟩

/-- What happens at a moment, and the moment after it.  Nothing happens any more when the first file
has come to its end. -/
def next? (files : Files) (m : Moment) : Option (Event × Moment) :=
  match m.innermost.items, m.outer with
  | [], [] => none
  | [], frame :: outer => some (.closed, ⟨frame, outer, m.made⟩)
  | item :: items, _ =>
    let event := item.event files m.stack
    let rest := m.later items event.adds
    some (event, (event.opened?.map rest.opening).getD rest)

/-- The item at hand is an include of the file at `path`. -/
def Includes (m : Moment) (path : Path) : Prop :=
  m.innermost.items.head?.bind Item.included? = some path

/-- The stack does not change while the items of one file are dealt with. -/
@[simp] lemma stack_later (m : Moment) (items : List Item) (added : Salvage (List Token)) :
    (m.later items added).stack = m.stack :=
  rfl

/-- A file that is opened is put on top of the stack. -/
@[simp] lemma stack_opening (m : Moment) (frame : Frame) :
    (m.opening frame).stack = frame.file :: m.stack :=
  rfl

/-- What comes at two times comes in their order. -/
lemma later_later (m : Moment) (items others : List Item) (first second : Salvage (List Token)) :
    (m.later items first).later others second = m.later others (first ++ second) := by
  rw [later, later, later, Salvage.append_assoc]

end Moment

variable {files : Files} {room : ℕ} {stack : List Path} {path : Path} {item : Item}
  {items : List Item} {event : Event} {m m' last : Moment}
  {log before after : List (Moment × Event)}

/-- A file is opened by reading it, and then its items are still to come. -/
lemma Event.opened?_eq_some_iff {frame : Frame} :
    event.opened? = some frame ↔ ∃ path source, event = .read path (.ok source) ∧
      frame = ⟨path, Item.ofTokens (tokenize path source).value⟩ := by
  cases event with
  | kept t => simp [opened?]
  | refused fault => simp [opened?]
  | closed => simp [opened?]
  | read path outcome =>
    cases outcome with
    | error cause => simp [opened?]
    | ok source => simp [opened?, eq_comm]

/-- A file is read only for an include of it, and only if it may be opened. -/
lemma Item.event_eq_read_iff {outcome : Except FileError (List UInt8)} :
    item.event files stack = .read path outcome ↔
      item.included? = some path ∧ MayOpen stack path ∧ files.read path = outcome := by
  cases item with
  | inclusion directive target =>
    rw [event, included?, Option.some_inj]
    constructor
    · intro h
      split_ifs at h with hcycle hdeep
      cases h
      exact ⟨rfl, ⟨Bool.eq_false_iff.mpr hcycle, not_lt.mp hdeep⟩, rfl⟩
    · rintro ⟨rfl, hopen, rfl⟩
      rw [if_neg (Bool.eq_false_iff.mp hopen.not_on_stack), if_neg (not_lt.mpr hopen.length_le)]
  | _ => simp [event, included?]

/-- An include is refused as a cycle just when its path is on the stack, whatever the depth. -/
lemma Item.event_eq_refused_includeCycle_iff :
    item.event files stack = .refused (.includeCycle path) ↔
      item.included? = some path ∧ stack.any (·.sameAs path) = true := by
  cases item with
  | inclusion directive target =>
    rw [event, included?, Option.some_inj]
    constructor
    · intro h
      split_ifs at h with hcycle hdeep
      · cases h
        exact ⟨rfl, hcycle⟩
      · cases h
    · rintro ⟨rfl, hcycle⟩
      rw [if_pos hcycle]
  | _ => simp [event, included?]

/-- An include is refused as too deep just when its path is not on the stack and the stack is full.
-/
lemma Item.event_eq_refused_includeTooDeep_iff :
    item.event files stack = .refused (.includeTooDeep path) ↔
      item.included? = some path ∧ stack.any (·.sameAs path) = false ∧
        includeLimit < stack.length := by
  cases item with
  | inclusion directive target =>
    rw [event, included?, Option.some_inj]
    constructor
    · intro h
      split_ifs at h with hcycle hdeep
      · cases h
      · cases h
        exact ⟨rfl, Bool.eq_false_iff.mpr hcycle, hdeep⟩
    · rintro ⟨rfl, hcycle, hdeep⟩
      rw [if_neg (Bool.eq_false_iff.mp hcycle), if_pos hdeep]
  | _ => simp [event, included?]

/-- What happens to an item does not depend on files that it does not read. -/
lemma Item.event_congr {files' : Files}
    (h : ∀ path outcome, item.event files stack = .read path outcome →
      files'.read path = outcome) : item.event files' stack = item.event files stack := by
  cases item with
  | token t => rfl
  | includeWithoutPath directive => rfl
  | unknown directive => rfl
  | inclusion directive target =>
    rw [Item.event, Item.event] at *
    split_ifs at h ⊢
    · rfl
    · rfl
    · rw [h _ _ rfl]

/-! ### One item -/

/-- An include comes to a cycle or to what is spliced for its path. -/
lemma Item.expand_of_included?_eq_some (h : item.included? = some path)
    (splice : Path → Salvage (List Token)) :
    item.expand stack splice =
      if stack.any (·.sameAs path) then ⟨[], [.includeCycle path]⟩ else splice path := by
  cases item with
  | inclusion directive target =>
    cases h
    rfl
  | _ => cases h

/-- An item at which no file is opened comes to what the event adds. -/
lemma Item.expand_of_opened?_eq_none (hroom : stack.length + room = includeLimit + 1)
    (h : (item.event files stack).opened? = none) :
    item.expand stack (contentOf files room stack) = (item.event files stack).adds := by
  cases item with
  | token t => rfl
  | includeWithoutPath directive => rfl
  | unknown directive => rfl
  | inclusion directive target =>
    rw [Item.event, Item.expand] at *
    split_ifs at h ⊢ with hcycle hdeep
    · rfl
    · obtain rfl : room = 0 := by omega
      rfl
    · obtain ⟨room, rfl⟩ : ∃ below, room = below + 1 := ⟨room - 1, by omega⟩
      cases hread : files.read (includedPath directive target) with
      | error cause => rw [contentOf, hread, Event.adds]
      | ok source =>
        rw [hread] at h
        cases h

/-- An item at which a file is opened comes to what the event adds and to what the file expands to,
with less room. -/
lemma Item.expand_of_opened?_eq_some {frame : Frame}
    (hroom : stack.length + room = includeLimit + 1)
    (h : (item.event files stack).opened? = some frame) :
    ∃ below, room = below + 1 ∧
      item.expand stack (contentOf files room stack) =
        (item.event files stack).adds ++
          Salvage.flatMap frame.items
            (Item.expand (frame.file :: stack) (contentOf files below (frame.file :: stack))) := by
  obtain ⟨path, source, hevent, rfl⟩ := Event.opened?_eq_some_iff.mp h
  obtain ⟨hincluded, hopen, hread⟩ := Item.event_eq_read_iff.mp hevent
  have hlength := hopen.length_le
  refine ⟨room - 1, by omega, ?_⟩
  obtain ⟨below, rfl⟩ : ∃ below, room = below + 1 := ⟨room - 1, by omega⟩
  rw [hevent, Item.expand_of_included?_eq_some hincluded,
    if_neg (Bool.eq_false_iff.mp hopen.not_on_stack), contentOf_of_read_eq_ok hread,
    Nat.add_sub_cancel, expandWithin_eq]
  rfl

/-! ### One step -/

/-- What a step can do: close the innermost file, go past an item, or open a file at an item. -/
lemma Moment.next?_cases (h : m.next? files = some (event, m')) :
    (∃ frame outer, m.innermost.items = [] ∧ m.outer = frame :: outer ∧ event = .closed ∧
        m' = ⟨frame, outer, m.made⟩) ∨
      ∃ item items, m.innermost.items = item :: items ∧ event = item.event files m.stack ∧
        ((event.opened? = none ∧ m' = m.later items event.adds) ∨
          ∃ frame, event.opened? = some frame ∧ m' = (m.later items event.adds).opening frame) := by
  obtain ⟨⟨file, items⟩, outer, made⟩ := m
  match items, outer, h with
  | [], frame :: outer, h =>
    cases h
    exact .inl ⟨frame, outer, rfl, rfl, rfl, rfl⟩
  | item :: items, outer, h =>
    cases h
    refine .inr ⟨item, items, rfl, rfl, ?_⟩
    generalize item.event files _ = event
    cases event.opened? with
    | none => exact .inl ⟨rfl, rfl⟩
    | some frame => exact .inr ⟨frame, rfl, rfl⟩

/-- An item at which no file is opened is dealt with in one event. -/
lemma Moment.next?_of_opened?_eq_none (h : m.innermost.items = item :: items)
    (hopened : (item.event files m.stack).opened? = none) :
    m.next? files = some (item.event files m.stack,
      m.later items (item.event files m.stack).adds) := by
  obtain ⟨⟨file, _⟩, outer, made⟩ := m
  cases h
  rw [next?]
  simp only [hopened, Option.map_none, Option.getD_none]

/-- After an item at which a file is opened that file comes next, and what is left of the item's own
file waits below it. -/
lemma Moment.next?_of_opened?_eq_some {frame : Frame} (h : m.innermost.items = item :: items)
    (hopened : (item.event files m.stack).opened? = some frame) :
    m.next? files = some (item.event files m.stack,
      (m.later items (item.event files m.stack).adds).opening frame) := by
  obtain ⟨⟨file, _⟩, outer, made⟩ := m
  cases h
  rw [next?]
  simp only [hopened, Option.map_some, Option.getD_some]

/-- At the end of a file that was opened at a moment, it is closed and that moment is back. -/
lemma Moment.next?_opening_later {frame : Frame} {added : Salvage (List Token)} :
    ((m.opening frame).later [] added).next? files =
      some (.closed, m.later m.innermost.items added) :=
  rfl

/-- Nothing depends on files that are not read. -/
lemma Moment.next?_congr {files' : Files} (h : m.next? files = some (event, m'))
    (hread : ∀ path outcome, event = .read path outcome → files'.read path = outcome) :
    m.next? files' = some (event, m') := by
  obtain ⟨⟨file, items⟩, outer, made⟩ := m
  match items, outer, h with
  | [], frame :: outer, h => exact h
  | item :: items, outer, h =>
    cases h
    simp only [next?, Item.event_congr hread]

/-- What an event adds is put behind what has come so far. -/
lemma Moment.made_eq_of_next? (h : m.next? files = some (event, m')) :
    m'.made = m.made ++ event.adds := by
  obtain ⟨frame, outer, -, -, rfl, rfl⟩ | ⟨item, items, -, -, ⟨-, rfl⟩ | ⟨frame, -, rfl⟩⟩ :=
    next?_cases h
  · exact (Salvage.append_empty _).symm
  · rfl
  · rfl

/-! ### Runs -/

/-- From a moment on this happens, one after the other, up to another moment.  Every event is
written down with the moment at which it happens. -/
inductive Runs (files : Files) : Moment → List (Moment × Event) → Moment → Prop where
  | refl (m : Moment) : Runs files m [] m
  | next {m m' last : Moment} {event : Event} {log : List (Moment × Event)}
      (hnext : m.next? files = some (event, m')) (h : Runs files m' log last) :
      Runs files m ((m, event) :: log) last

/-- Two runs one after the other are a run. -/
lemma Runs.trans {others : List (Moment × Event)} (h : Runs files m log m')
    (h' : Runs files m' others last) : Runs files m (log ++ others) last := by
  induction h with
  | refl => exact h'
  | next hnext _ ih => exact .next hnext (ih h')

/-- A run goes through the moments that are written down. -/
lemma Runs.split (h : Runs files m (before ++ (m', event) :: after) last) :
    Runs files m before m' ∧ ∃ next, m'.next? files = some (event, next) ∧
      Runs files next after last := by
  induction before generalizing m with
  | nil =>
    obtain _ | ⟨hnext, h⟩ := h
    exact ⟨.refl _, _, hnext, h⟩
  | cons entry before ih =>
    obtain _ | ⟨hnext, h⟩ := h
    obtain ⟨hbefore, hafter⟩ := ih h
    exact ⟨.next hnext hbefore, hafter⟩

/-- A run leaves no choice: each other one from the same moment is a part of it if it leads to an
end. -/
lemma Runs.exists_rest {others : List (Moment × Event)} (h : Runs files m others m')
    (hlog : Runs files m log last) (hend : last.next? files = none) :
    ∃ rest, log = others ++ rest ∧ Runs files m' rest last := by
  induction h generalizing log with
  | refl => exact ⟨log, rfl, hlog⟩
  | next hnext _ ih =>
    cases hlog with
    | refl =>
      rw [hend] at hnext
      cases hnext
    | next hnext' hlog =>
      rw [hnext] at hnext'
      cases hnext'
      obtain ⟨rest, rfl, hrest⟩ := ih hlog
      exact ⟨rest, rfl, hrest⟩

/-- A run from an end goes nowhere. -/
lemma Runs.eq_of_next?_eq_none (h : Runs files m log last) (hend : m.next? files = none) :
    last = m := by
  cases h with
  | refl => rfl
  | next hnext _ =>
    rw [hend] at hnext
    cases hnext

/-- What has come at the end of a run is what had come before it, and the parts of its events in
their order. -/
lemma Runs.made_eq (h : Runs files m log last) :
    last.made = m.made ++ Salvage.concat (log.map fun entry => entry.2.adds) := by
  induction h with
  | refl m => exact (Salvage.append_empty _).symm
  | @next m m' last event log hnext _ ih =>
    rw [ih, Moment.made_eq_of_next? hnext, List.map_cons, Salvage.concat_cons,
      Salvage.append_assoc]

/-- A run is the same with other files, if those that are read in it have the same content. -/
lemma Runs.congr {files' : Files} (h : Runs files m log last)
    (hread : ∀ m path outcome, (m, .read path outcome) ∈ log → files'.read path = outcome) :
    Runs files' m log last := by
  induction h with
  | refl m => exact .refl m
  | next hnext _ ih =>
    refine .next (Moment.next?_congr hnext ?_)
      (ih fun m path outcome hmem => hread m path outcome (List.mem_cons_of_mem _ hmem))
    rintro path outcome rfl
    exact hread _ path outcome (List.mem_cons_self ..)

/-! ### Every file comes to its end -/

/-- A run from `m` up to `last`, at whose moments the files on `stack` are all open. -/
def RunsOn (files : Files) (stack : List Path) (m last : Moment) : Prop :=
  ∃ log, Runs files m log last ∧ ∀ entry ∈ log, stack <:+ entry.1.stack

/-- A run without events leaves the stack as it is. -/
lemma RunsOn.refl (stack : List Path) (m : Moment) : RunsOn files stack m m :=
  ⟨[], .refl m, by simp⟩

/-- Two runs one after the other keep what both of them keep on the stack. -/
lemma RunsOn.trans (h : RunsOn files stack m m') (h' : RunsOn files stack m' last) :
    RunsOn files stack m last := by
  obtain ⟨log, hlog, hstack⟩ := h
  obtain ⟨others, hothers, hstack'⟩ := h'
  exact ⟨log ++ others, hlog.trans hothers, List.forall_mem_append.mpr ⟨hstack, hstack'⟩⟩

/-- The moment at which the innermost file has come to its end, when `room` more files may be
opened. -/
def Moment.finished (files : Files) (room : ℕ) (m : Moment) : Moment :=
  m.later [] <|
    Salvage.flatMap m.innermost.items (Item.expand m.stack (contentOf files room m.stack))

/-- From `m` on the item at hand is dealt with, and the files on the stack are the same afterwards.
In between others are open on top of them. -/
def Returns (files : Files) (room : ℕ) (m : Moment) (item : Item) (items : List Item)
    (inside : List (Moment × Event)) : Prop :=
  Runs files m ((m, item.event files m.stack) :: inside)
      (m.later items (item.expand m.stack (contentOf files room m.stack))) ∧
    ∀ entry ∈ inside, ∃ path, path :: m.stack <:+ entry.1.stack

/-- An item is dealt with if a file that is opened at it comes to its end. -/
lemma exists_returns_of_below (files : Files) (hroom : m.stack.length + room = includeLimit + 1)
    (hitems : m.innermost.items = item :: items)
    (hbelow : ∀ below m', room = below + 1 → m'.stack.length + below = includeLimit + 1 →
      RunsOn files m'.stack m' (m'.finished files below)) :
    ∃ inside, Returns files room m item items inside := by
  cases hopened : (item.event files m.stack).opened? with
  | none =>
    refine ⟨[], .next (Moment.next?_of_opened?_eq_none hitems hopened) ?_, by simp⟩
    rw [Item.expand_of_opened?_eq_none hroom hopened]
    exact .refl _
  | some frame =>
    obtain ⟨below, rfl, hexpand⟩ := Item.expand_of_opened?_eq_some hroom hopened
    let back := m.later items (item.event files m.stack).adds
    obtain ⟨inner, hinner, hstack⟩ := hbelow below (back.opening frame) rfl
      (by rw [Moment.stack_opening, Moment.stack_later, List.length_cons]; omega)
    let closing := (back.opening frame).finished files below
    refine ⟨inner ++ [(closing, .closed)], .next (Moment.next?_of_opened?_eq_some hitems hopened)
      (hinner.trans ?_), List.forall_mem_append.mpr ⟨fun entry hentry => ?_, ?_⟩⟩
    · rw [hexpand, ← Moment.later_later]
      exact .next Moment.next?_opening_later (.refl _)
    · exact ⟨frame.file, hstack entry hentry⟩
    · rintro entry hentry
      obtain rfl := List.mem_singleton.mp hentry
      exact ⟨frame.file, List.suffix_refl _⟩

/-- Every file comes to its end, and to what the recursive expansion of its items gives. -/
theorem runsOn_finished (files : Files) (room : ℕ) (m : Moment)
    (hroom : m.stack.length + room = includeLimit + 1) :
    RunsOn files m.stack m (m.finished files room) := by
  -- By the files that may still be opened, and in a file by its remaining items.
  induction room using Nat.strong_induction_on generalizing m with
  | _ room ih =>
    generalize hitems : m.innermost.items = items
    induction items generalizing m with
    | nil =>
      have hfinished : m.finished files room = m := by
        obtain ⟨⟨file, _⟩, outer, made⟩ := m
        cases hitems
        exact congrArg (Moment.mk _ _) (Salvage.append_empty made)
      rw [hfinished]
      exact .refl _ m
    | cons item items ihitems =>
      obtain ⟨inside, hruns, hinside⟩ := exists_returns_of_below files hroom hitems
        fun below m' hbelow => ih below (by omega) m'
      have hitem : RunsOn files m.stack m
          (m.later items (item.expand m.stack (contentOf files room m.stack))) := by
        refine ⟨_, hruns, List.forall_mem_cons.mpr ⟨List.suffix_refl _, fun entry hentry => ?_⟩⟩
        obtain ⟨path, hpath⟩ := hinside entry hentry
        exact (List.suffix_cons ..).trans hpath
      have hrest := hitem.trans (ihitems _ hroom rfl)
      rw [Moment.finished, Moment.later_later] at hrest
      rw [Moment.finished, hitems, Salvage.flatMap_cons]
      exact hrest

/-- Every item is dealt with, since every file that is opened at it comes to its end. -/
lemma exists_returns (files : Files) (hroom : m.stack.length + room = includeLimit + 1)
    (hitems : m.innermost.items = item :: items) :
    ∃ inside, Returns files room m item items inside :=
  exists_returns_of_below files hroom hitems fun below m' _ => runsOn_finished files below m'

/-! ### What holds at every moment -/

/-- The stack begins with the file `primary`, has no file twice and is not too long. -/
structure Guarded (primary : Path) (stack : List Path) : Prop where
  distinct : stack.Pairwise fun above below => below.sameAs above = false
  first : stack.getLast? = some primary.normalize
  length_le : stack.length ≤ includeLimit + 1

/-- At the start the only file on the stack is that of the stream. -/
lemma guarded_start (primary : Path) (tokens : List Token) :
    Guarded primary (Moment.start primary tokens).stack :=
  ⟨List.pairwise_singleton .., rfl, Nat.le_add_left 1 includeLimit⟩

/-- A file that may be opened differs from those on the stack, and there is room for it. -/
lemma Guarded.cons {primary : Path} (h : Guarded primary stack) (hopen : MayOpen stack path) :
    Guarded primary (path :: stack) where
  distinct := List.pairwise_cons.mpr ⟨fun below hbelow =>
    Bool.eq_false_iff.mpr (List.any_eq_false.mp hopen.not_on_stack below hbelow), h.distinct⟩
  first := by rw [List.getLast?_cons, h.first, Option.getD_some]
  length_le := Nat.succ_le_succ hopen.length_le

/-- Closing the innermost file keeps what holds of the stack, if another is left. -/
lemma Guarded.of_cons {primary : Path} (h : Guarded primary (path :: stack))
    (hstack : stack ≠ []) : Guarded primary stack where
  distinct := h.distinct.of_cons
  first := by rw [← h.first, List.getLast?_cons_of_ne_nil hstack]
  length_le := (Nat.le_succ _).trans h.length_le

/-- What happens at a moment keeps what holds of the stack. -/
lemma Guarded.next {primary : Path} (h : Guarded primary m.stack)
    (hnext : m.next? files = some (event, m')) : Guarded primary m'.stack := by
  obtain ⟨frame, outer, -, houter, -, rfl⟩ | ⟨item, items, -, hevent, hstep⟩ :=
    Moment.next?_cases hnext
  · rw [Moment.stack, houter] at h
    exact h.of_cons (List.cons_ne_nil _ _)
  · obtain ⟨-, rfl⟩ | ⟨frame, hopened, rfl⟩ := hstep
    · exact h
    · obtain ⟨path, source, hread, rfl⟩ := Event.opened?_eq_some_iff.mp hopened
      exact h.cons (Item.event_eq_read_iff.mp (hevent.symm.trans hread)).2.1

/-- By induction on the run it holds at every later moment. -/
lemma Runs.guarded {primary : Path} (h : Runs files m log last) (hm : Guarded primary m.stack) :
    Guarded primary last.stack := by
  induction h with
  | refl => exact hm
  | next hnext _ ih => exact ih (hm.next hnext)

/-- What happens at a moment is as the stack says: it decides whether a file is read or refused. -/
structure Obeys (files : Files) (m : Moment) (event : Event) : Prop where
  read_iff (path : Path) (outcome : Except FileError (List UInt8)) :
    event = .read path outcome ↔
      m.Includes path ∧ MayOpen m.stack path ∧ files.read path = outcome
  cycle_iff (path : Path) :
    event = .refused (.includeCycle path) ↔
      m.Includes path ∧ m.stack.any (·.sameAs path) = true
  tooDeep_iff (path : Path) :
    event = .refused (.includeTooDeep path) ↔
      m.Includes path ∧ m.stack.any (·.sameAs path) = false ∧
        m.stack.length = includeLimit + 1

/-- With at most `includeLimit` files besides the first on the stack, no room is left just when it
has that many. -/
lemma Guarded.obeys {primary : Path} (hguarded : Guarded primary m.stack)
    (h : m.next? files = some (event, m')) : Obeys files m event := by
  obtain ⟨frame, outer, hitems, -, rfl, -⟩ | ⟨item, items, hitems, rfl, -⟩ :=
    Moment.next?_cases h
  · constructor <;> simp [Moment.Includes, hitems]
  · have hincludes {path : Path} : m.Includes path ↔ item.included? = some path := by
      rw [Moment.Includes, hitems, List.head?_cons, Option.bind_some]
    have hfull : includeLimit < m.stack.length ↔ m.stack.length = includeLimit + 1 := by
      have := hguarded.length_le
      omega
    constructor
    · intro path outcome
      rw [Item.event_eq_read_iff, hincludes]
    · intro path
      rw [Item.event_eq_refused_includeCycle_iff, hincludes]
    · intro path
      rw [Item.event_eq_refused_includeTooDeep_iff, hincludes, hfull]

/-- A file adds neither kind of fault by what is in it. -/
lemma Event.eq_refused_of_mem_faults {fault : Fault} (h : fault ∈ event.adds.faults)
    (hpath : ∃ path, fault = .includeCycle path ∨ fault = .includeTooDeep path) :
    event = .refused fault := by
  cases event with
  | kept t => cases h
  | closed => cases h
  | refused cause => rw [List.mem_singleton.mp h]
  | read path outcome =>
    obtain ⟨path', rfl | rfl⟩ := hpath <;> cases outcome with
    | error cause => cases List.mem_singleton.mp h
    | ok source =>
      obtain ⟨_, _, hfault⟩ := eq_lexical_of_mem_faults h
      cases hfault

/-! ### Expansion -/

/-- The record of all that happens in an expansion, and what it says of the stack. -/
structure Traces (files : Files) (primary : Path) (tokens : List Token)
    (log : List (Moment × Event)) : Prop where
  /-- The expansion comes to its end, with the first file alone on the stack. -/
  runs : Runs files (.start primary tokens) log
    ⟨⟨primary.normalize, []⟩, [], expand files primary tokens⟩
  /-- However far the expansion is followed, this is what happens. -/
  only : ∀ others m, Runs files (.start primary tokens) others m → others <+: log
  /-- Each event adds its part to what the expansion comes to, and nothing else does. -/
  parts : expand files primary tokens = .concat (log.map fun entry => entry.2.adds)
  guarded : ∀ m event, (m, event) ∈ log → Guarded primary m.stack
  obeys : ∀ m event, (m, event) ∈ log → Obeys files m event
  /-- A cycle or too great a depth is a fault only where a file is refused for it. -/
  refused : ∀ m event path fault, (m, event) ∈ log →
    fault = .includeCycle path ∨ fault = .includeTooDeep path → fault ∈ event.adds.faults →
      event = .refused fault
  /-- When an item has been dealt with, an include among them, the stack is the one from before. -/
  returns : ∀ before m event after item items, log = before ++ (m, event) :: after →
    m.innermost.items = item :: items →
      ∃ inside rest, after = inside ++ rest ∧
        Returns files (includeLimit + 1 - m.stack.length) m item items inside
  /-- No file matters but those that are read. -/
  determined : ∀ files' : Files,
    (∀ m path outcome, (m, .read path outcome) ∈ log → files'.read path = outcome) →
      expand files' primary tokens = expand files primary tokens

/-- The last moment of an expansion. -/
lemma finished_start (files : Files) (primary : Path) (tokens : List Token) :
    (Moment.start primary tokens).finished files includeLimit =
      ⟨⟨primary.normalize, []⟩, [], expand files primary tokens⟩ := by
  rw [expand, expandWithin_eq]
  rfl

/-- The whole expansion is a run during which the first file stays on the stack. -/
lemma runsOn_start (files : Files) (primary : Path) (tokens : List Token) :
    RunsOn files [primary.normalize] (.start primary tokens)
      ⟨⟨primary.normalize, []⟩, [], expand files primary tokens⟩ := by
  rw [← finished_start]
  exact runsOn_finished files includeLimit _ (Nat.add_comm 1 includeLimit)

/-- An expansion comes to its end.  At all times the paths on the stack differ, the first one is
that of the stream and there are at most `includeLimit` others; a file is read only if its path is
not on the stack and there is room for one more; the includes whose path is on the stack, and those
that there is no room for, are the ones that are refused for it; and after each include the stack is
what it was before. -/
theorem expand_traced (files : Files) (primary : Path) (tokens : List Token) :
    ∃ log, Traces files primary tokens log := by
  obtain ⟨log, hruns, -⟩ := runsOn_start files primary tokens
  have hmoment {m : Moment} {event : Event} (h : (m, event) ∈ log) :
      Guarded primary m.stack ∧ ∃ next, m.next? files = some (event, next) := by
    obtain ⟨before, after, rfl⟩ := List.append_of_mem h
    obtain ⟨hbefore, next, hnext, -⟩ := hruns.split
    exact ⟨hbefore.guarded (guarded_start primary tokens), next, hnext⟩
  have hparts : expand files primary tokens = .concat (log.map fun entry => entry.2.adds) := by
    rw [← Salvage.empty_append (.concat _)]
    exact hruns.made_eq
  refine ⟨log, hruns, fun others m h => ?_, hparts, fun m event h => (hmoment h).1, ?_, ?_, ?_,
    fun files' hread => ?_⟩
  · obtain ⟨rest, rfl, -⟩ := h.exists_rest hruns rfl
    exact List.prefix_append ..
  · intro m event h
    obtain ⟨hstack, next, hnext⟩ := hmoment h
    exact hstack.obeys hnext
  · intro m event path fault _ hfault hmem
    exact Event.eq_refused_of_mem_faults hmem ⟨path, hfault⟩
  · intro before m event after item items hlog hitems
    subst hlog
    obtain ⟨hbefore, next, hnext, hafter⟩ := hruns.split
    have hlength := (hbefore.guarded (guarded_start primary tokens)).length_le
    obtain ⟨inside, hreturns⟩ := exists_returns files (Nat.add_sub_cancel' hlength) hitems
    -- What is left of the run from here begins with the run to the end of the item.
    obtain ⟨rest, hrest, -⟩ := hreturns.1.exists_rest (.next hnext hafter) rfl
    exact ⟨inside, rest, (List.cons.inj hrest).2, hreturns⟩
  · obtain ⟨log', hruns', -⟩ := runsOn_start files' primary tokens
    obtain ⟨rest, -, hrest⟩ := (hruns.congr hread).exists_rest hruns' rfl
    exact congrArg Moment.made (hrest.eq_of_next?_eq_none rfl)

/-- A file that includes the one it is included in. -/
theorem expand_traced_cycle :
    let main : Path := ⟨"/home/project/m.uva"⟩
    let files := (Files.empty ["home", "project"]).writeFile ⟨"a.uva"⟩
      (Utf8.encode "x #include 'm.uva'")
    let tokens := (tokenize main (Utf8.encode "#include 'a.uva' y")).value
    (expand files main tokens).value.map text = ["x", "y"] ∧
      (expand files main tokens).faults = [.includeCycle main] ∧
      ∃ log m, Traces files main tokens log ∧ (m, .refused (.includeCycle main)) ∈ log ∧
        m.Includes main ∧ m.stack.any (·.sameAs main) = true := by
  intro main files tokens
  have hfaults : (expand files main tokens).faults = [.includeCycle main] := by decide +kernel
  obtain ⟨log, h⟩ := expand_traced files main tokens
  have hmem : .includeCycle main ∈ (expand files main tokens).faults := by
    rw [hfaults]
    exact List.mem_cons_self ..
  rw [h.parts] at hmem
  obtain ⟨part, hpart, hmem⟩ := List.mem_flatMap.mp hmem
  obtain ⟨⟨m, event⟩, hentry, rfl⟩ := List.mem_map.mp hpart
  obtain rfl := h.refused m event main _ hentry (.inl rfl) hmem
  have hcycle := ((h.obeys m _ hentry).cycle_iff main).mp rfl
  exact ⟨by decide +kernel, hfaults, log, m, h, hentry, hcycle⟩

end Token

end UvaAnalysis
