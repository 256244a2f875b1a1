import Gfs.Types.Path

/-! Git's reading of a configuration file, byte by byte: section headers of either form, keys,
values with their quotes, escapes and continued lines, comments. What is written behind a file that
ends between settings adds its own settings and touches no earlier one.
-/

namespace Gfs.Git.Config

open Gfs.Types

-- The reader

/-- A setting, under its whole key; a key alone has no value. -/
structure Setting where
  key : Bytes
  value : Option Bytes
  deriving DecidableEq, Repr

/-- Where the reader stands, with the name it is reading: of a section, of a subsection, or the
whole key of a setting. The spaces behind the solid part of a value count once something follows.
-/
inductive Mode where
  | idle
  | comment
  | header (name : Bytes)
  | spacing (name : Bytes)
  | subsection (name : Bytes)
  | escapedName (name : Bytes)
  | closing (name : Bytes)
  | key (name : Bytes)
  | keyEnd (name : Bytes)
  | value (name solid spaces : Bytes) (quoted : Bool)
  | escapedValue (name solid : Bytes) (quoted : Bool)
  | remark (name solid : Bytes)
  deriving DecidableEq, Repr

/-- The reader: the section it is in, as the front of its keys, and the settings so far. -/
structure Reader where
  stem : Bytes
  mode : Mode
  settings : List Setting
  deriving DecidableEq, Repr

/-- `isspace` of Git's own character classes. -/
def isSpace (b : UInt8) : Bool :=
  b = 32 || b = 9 || b = 10 || b = 13

def isAlpha (b : UInt8) : Bool :=
  65 ≤ b && b ≤ 90 || 97 ≤ b && b ≤ 122

def isKeyChar (b : UInt8) : Bool :=
  isAlpha b || 48 ≤ b && b ≤ 57 || b = 45

def toLower (b : UInt8) : UInt8 :=
  if 65 ≤ b ∧ b ≤ 90 then b + 32 else b

/-- What a C string holds of a buffer. -/
def cString (buffer : Bytes) : Bytes :=
  buffer.takeWhile (· ≠ 0)

namespace Reader

/-- A file's beginning. -/
def start : Reader :=
  ⟨[], .idle, []⟩

def into (reader : Reader) (mode : Mode) : Reader :=
  { reader with mode }

/-- The end of a header. -/
def enter (reader : Reader) (name : Bytes) : Reader :=
  { reader with stem := name ++ [46], mode := .idle }

/-- The end of a setting. -/
def emit (reader : Reader) (name : Bytes) (value : Option Bytes) : Reader :=
  { reader with
    mode := .idle
    settings := reader.settings ++ [⟨cString name, value.map cString⟩] }

/-- A byte behind a key. -/
def afterKey (reader : Reader) (name : Bytes) (b : UInt8) : Option Reader :=
  if b = 32 ∨ b = 9 then some (reader.into (.keyEnd name))
  else if b = 10 then some (reader.emit name none)
  else if b = 61 then some (reader.into (.value name [] [] false))
  else none

/-- A byte of a value. -/
def inValue (reader : Reader) (name solid spaces : Bytes) (quoted : Bool) (b : UInt8)
    : Option Reader :=
  if b = 10 then
    if quoted then none else some (reader.emit name (some solid))
  else if isSpace b && !quoted then
    if solid ++ spaces = [] then some reader
    else some (reader.into (.value name solid (spaces ++ [b]) quoted))
  else if !quoted && (b = 35 || b = 59) then some (reader.into (.remark name solid))
  else if b = 92 then some (reader.into (.escapedValue name (solid ++ spaces) quoted))
  else if b = 34 then some (reader.into (.value name (solid ++ spaces) [] !quoted))
  else some (reader.into (.value name (solid ++ spaces ++ [b]) [] quoted))

/-- The byte behind a backslash in a value. -/
def unescape (b : UInt8) : Option Bytes :=
  if b = 10 then some []
  else if b = 116 then some [9]
  else if b = 98 then some [8]
  else if b = 110 then some [10]
  else if b = 92 ∨ b = 34 then some [b]
  else none

/-- One byte; none where Git gives the file up. An empty header `[]`, which Git rejects, is here a
section without a name.
-/
def step (reader : Reader) (b : UInt8) : Option Reader :=
  match reader.mode with
  | .idle =>
      if isSpace b then some reader
      else if b = 35 ∨ b = 59 then some (reader.into .comment)
      else if b = 91 then some (reader.into (.header []))
      else if isAlpha b then some (reader.into (.key (reader.stem ++ [toLower b])))
      else none
  | .comment => some (if b = 10 then reader.into .idle else reader)
  | .header name =>
      if b = 93 then some (reader.enter name)
      else if b = 10 then none
      else if isSpace b then some (reader.into (.spacing name))
      else if isKeyChar b ∨ b = 46 then some (reader.into (.header (name ++ [toLower b])))
      else none
  | .spacing name =>
      if b = 10 then none
      else if isSpace b then some reader
      else if b = 34 then some (reader.into (.subsection (name ++ [46])))
      else none
  | .subsection name =>
      if b = 10 then none
      else if b = 34 then some (reader.into (.closing name))
      else if b = 92 then some (reader.into (.escapedName name))
      else some (reader.into (.subsection (name ++ [b])))
  | .escapedName name =>
      if b = 10 then none else some (reader.into (.subsection (name ++ [b])))
  | .closing name => if b = 93 then some (reader.enter name) else none
  | .key name =>
      if isKeyChar b then some (reader.into (.key (name ++ [toLower b])))
      else reader.afterKey name b
  | .keyEnd name => reader.afterKey name b
  | .value name solid spaces quoted => reader.inValue name solid spaces quoted b
  | .escapedValue name solid quoted =>
      (unescape b).map fun read => reader.into (.value name (solid ++ read) [] quoted)
  | .remark name solid => some (if b = 10 then reader.emit name (some solid) else reader)

def run (reader : Reader) (bytes : Bytes) : Option Reader :=
  bytes.foldlM step reader

end Reader

/-- A carriage return before a line feed is part of it. -/
def joined : Bytes → Bytes
  | 13 :: 10 :: rest => 10 :: joined rest
  | b :: rest => b :: joined rest
  | [] => []

/-- A file less its byte order mark; a part of one is an error. -/
def body : Bytes → Option Bytes
  | 239 :: 187 :: 191 :: rest => some rest
  | 239 :: _ => none
  | text => some text

/-- The settings of a file, in its order, if Git accepts it. The end of the file ends its last line,
and once more a line that this continued.
-/
def read (text : Bytes) : Option (List Setting) := do
  let text ← body text
  let reader ← Reader.start.run (joined text ++ [10, 10])
  return reader.settings

/-- A file whose last line is ended. -/
def ended (text : Bytes) : Bytes :=
  if text = [] ∨ text.getLast? = some 10 then text else text ++ [10]

/-- What stands behind a file's last line begins anew: no value is continued there. -/
def endsBetween (text : Bytes) : Bool :=
  ((body (ended text)).bind fun text => Reader.start.run (joined text)).any
    fun reader => reader.mode = .idle

/-- The value of a key that counts: the last one. -/
def effective (settings : List Setting) (key : Bytes) : Option (Option Bytes) :=
  ((settings.filter (·.key = key)).getLast?).map Setting.value

-- Runs of the reader

namespace Reader

@[simp]
theorem run_nil (reader : Reader) : reader.run [] = some reader :=
  rfl

@[simp]
theorem run_cons (reader : Reader) (b : UInt8) (rest : Bytes)
    : reader.run (b :: rest) = (reader.step b).bind (·.run rest) :=
  List.foldlM_cons

theorem run_append (reader : Reader) (front back : Bytes)
    : reader.run (front ++ back) = (reader.run front).bind (·.run back) :=
  List.foldlM_append

theorem step_idle_newline {reader : Reader} (idle : reader.mode = .idle)
    : reader.step 10 = some reader := by
  rw [step, idle]
  rfl

/-- A carriage return in front of a line feed changes nothing, where Git accepts it: it is a space,
and a value's last spaces do not count.
-/
theorem step_return {reader returned after : Reader} (carriage : reader.step 13 = some returned)
    (feed : returned.step 10 = some after)
    : reader.step 10 = some after := by
  obtain ⟨stem, mode, settings⟩ := reader
  cases mode with
  | idle | comment | remark name solid =>
      cases carriage
      exact feed
  | header name | spacing name | escapedName name | subsection name =>
      cases carriage
      cases feed
  | closing name | key name | keyEnd name | escapedValue name solid quoted => cases carriage
  | value name solid spaces quoted =>
      cases quoted with
      | true =>
          cases carriage
          cases feed
      | false =>
          by_cases nothing : solid ++ spaces = []
          · have same : returned = ⟨stem, .value name solid spaces false, settings⟩ := by
              simpa [step, inValue, nothing, isSpace, eq_comm] using carriage
            rw [same] at feed
            exact feed
          · have spaced
                : returned = ⟨stem, .value name solid (spaces ++ [13]) false, settings⟩ := by
              simpa [step, inValue, nothing, isSpace, into, eq_comm] using carriage
            rw [spaced] at feed
            exact feed

end Reader

-- Line ends

/-- What is read of two parts is what is read of each, unless a line end is cut in two. -/
theorem joined_append {front back : Bytes}
    (whole : front.getLast? ≠ some 13 ∨ back.head? ≠ some 10)
    : joined (front ++ back) = joined front ++ joined back := by
  fun_induction joined front with
  | case1 rest ih =>
      rw [List.cons_append, List.cons_append, joined, List.cons_append, ih]
      refine whole.imp_left fun last => ?_
      cases rest with
      | nil => simp
      | cons b rest => simpa using last
  | case2 b rest apart ih =>
      rw [List.cons_append, List.cons_append, ← ih]
      · refine joined.eq_2 b (rest ++ back) fun rest' carriage cut => ?_
        cases rest with
        | nil =>
            subst carriage
            rw [List.nil_append] at cut
            rcases whole with last | head
            · exact last rfl
            · exact head (by rw [cut]; rfl)
        | cons next rest => exact apart rest carriage (by injection cut with same; rw [same])
      · refine whole.imp_left fun last => ?_
        cases rest with
        | nil => simp
        | cons next rest => simpa using last
  | case3 => rfl

variable {text : Bytes} {settings : List Setting}

theorem joined_of_no_feed (clean : 10 ∉ text) : joined text = text := by
  induction text with
  | nil => rfl
  | cons b text ih =>
      rw [List.mem_cons, not_or] at clean
      rw [joined.eq_2, ih clean.2]
      rintro rest - rfl
      exact clean.2 List.mem_cons_self

theorem joined_line {line rest : Bytes} (clean : 10 ∉ line) (last : line.getLast? ≠ some 13)
    : joined (line ++ 10 :: rest) = line ++ 10 :: joined rest := by
  rw [joined_append (.inl last), joined_of_no_feed clean, joined.eq_2 _ _ (by simp)]

-- Files that grow

theorem body_append {rest more : Bytes} (found : body text = some rest)
    (plain : more.head? ≠ some 239)
    : body (text ++ more) = some (rest ++ more) := by
  rw [body.eq_def] at found
  split at found
  · cases found
    rfl
  · cases found
  · rename_i whole partial_
    cases found
    have first : (text ++ more).head? ≠ some 239 := by
      cases text with
      | nil => exact plain
      | cons b text => exact fun same => partial_ text (by rw [← Option.some.inj same])
    exact body.eq_3 _ (fun rest marked => first (by rw [marked]; rfl))
      (fun rest marked => first (by rw [marked]; rfl))

/-- A file that Git accepts is accepted with its last line ended, and unless a value goes on behind
it, all its settings have been read by then.
-/
theorem run_ended (accepted : read text = some settings)
    : ∃ rest reader,
        body (ended text) = some rest
        ∧ Reader.start.run (joined rest) = some reader
        ∧ (reader.mode = .idle → reader.settings = settings) := by
  simp only [read, Option.bind_eq_bind, Option.bind_eq_some_iff, Option.pure_def,
    Option.some.injEq] at accepted
  obtain ⟨rest, found, final, reads, rfl⟩ := accepted
  by_cases done : text = [] ∨ text.getLast? = some 10
  · rw [Reader.run_append, Option.bind_eq_some_iff] at reads
    obtain ⟨reader, front, back⟩ := reads
    refine ⟨rest, reader, by rw [ended, if_pos done, found], front, fun idle => ?_⟩
    rw [Reader.run_cons, Reader.step_idle_newline idle, Option.bind_some, Reader.run_cons,
      Reader.step_idle_newline idle] at back
    exact congrArg Reader.settings (Option.some.inj back)
  · have grown : body (ended text) = some (rest ++ [10]) := by
      rw [ended, if_neg done, body_append found (by decide)]
    by_cases carriage : rest.getLast? = some 13
    · obtain ⟨front, rfl⟩ := List.getLast?_eq_some_iff.mp carriage
      rw [joined_append (.inr (by decide)), List.append_assoc, Reader.run_append,
        Option.bind_eq_some_iff] at reads
      obtain ⟨before, front_, back⟩ := reads
      have split : joined [13] ++ [10, 10] = [13, 10, 10] := rfl
      simp only [split, Reader.run_cons, Option.bind_eq_some_iff] at back
      obtain ⟨returned, first, after, second, last, third, same⟩ := back
      refine ⟨_, after, grown, ?_, fun idle => ?_⟩
      · rw [List.append_assoc, joined_append (.inr (by decide)), Reader.run_append, front_]
        simp [joined, Reader.step_return first second]
      · rw [Reader.step_idle_newline idle] at third
        rw [Option.some.inj third, Option.some.inj same]
    · have split : joined rest ++ [10, 10] = joined (rest ++ [10]) ++ [10] := by
        rw [joined_append (.inl carriage), List.append_assoc]
        rfl
      rw [split, Reader.run_append, Option.bind_eq_some_iff] at reads
      obtain ⟨reader, front, back⟩ := reads
      refine ⟨_, reader, grown, front, fun idle => ?_⟩
      rw [Reader.run_cons, Reader.step_idle_newline idle] at back
      exact congrArg Reader.settings (Option.some.inj back)

theorem read_append {more : Bytes} {added : List Setting} (accepted : read text = some settings)
    (between : endsBetween text = true) (plain : more.head? ≠ some 239)
    (line : more.head? ≠ some 10)
    (adds
      : ∀ reader : Reader, reader.mode = .idle
        → ∃ after,
          reader.run (joined more) = some after
          ∧ after.mode = .idle
          ∧ after.settings = reader.settings ++ added)
    : read (ended text ++ more) = some (settings ++ added) := by
  obtain ⟨rest, reader, found, reads, all⟩ := run_ended accepted
  have idle : reader.mode = .idle := by
    rw [endsBetween, found, Option.bind_some, reads] at between
    exact of_decide_eq_true between
  obtain ⟨after, grows, still, same⟩ := adds reader idle
  rw [read, body_append found plain]
  simp only [Option.bind_eq_bind, Option.bind_some, joined_append (.inr line),
    Reader.run_append, reads, grows, Reader.run_cons, Reader.step_idle_newline still,
    Reader.run_nil, Option.pure_def, same, all idle]

-- Sections that are written

/-- A byte of a subsection's name, as it is written between quotes. -/
def escapeName (b : UInt8) : Bytes :=
  if b = 92 ∨ b = 34 then [92, b] else [b]

theorem escapeName_clean {name : Bytes} (clean : 10 ∉ name) : 10 ∉ name.flatMap escapeName := by
  rw [List.mem_flatMap]
  rintro ⟨b, member, inside⟩
  rw [escapeName] at inside
  split at inside
  case isTrue special => rcases special with rfl | rfl <;> simp at inside
  case isFalse => exact clean (List.mem_singleton.mp inside ▸ member)

/-- A byte of a value, as it is written between quotes. -/
def escapeValue (b : UInt8) : Bytes :=
  if b = 92 ∨ b = 34 then [92, b]
  else if b = 10 then [92, 110]
  else if b = 9 then [92, 116]
  else [b]

/-- Git reads a value in what is written up to the end of the line. -/
structure WritesValue (written value : Bytes) : Prop where
  clean : 10 ∉ written
  last : written.getLast? ≠ some 13
  reads (reader : Reader) (key : Bytes)
    : (reader.into (.value key [] [] false)).run (written ++ [10])
      = some (reader.emit key (some value))

namespace Reader

theorem run_escapeName (reader : Reader) {name : Bytes} (clean : 10 ∉ name) (front : Bytes)
    : (reader.into (.subsection front)).run (name.flatMap escapeName)
      = some (reader.into (.subsection (front ++ name))) := by
  induction name generalizing front with
  | nil => simp
  | cons b name ih =>
      rw [List.mem_cons, not_or] at clean
      have here
          : (reader.into (.subsection front)).run (escapeName b)
            = some (reader.into (.subsection (front ++ [b]))) := by
        rw [escapeName]
        split
        case isTrue special =>
          rcases special with rfl | rfl <;> rfl
        case isFalse usual =>
          rw [not_or] at usual
          simp [step, into, Ne.symm clean.1, usual.1, usual.2]
      rw [List.flatMap_cons, run_append, here, Option.bind_some, ih clean.2, List.append_assoc,
        List.singleton_append]

theorem run_escapeValue (reader : Reader) (key value front : Bytes)
    : (reader.into (.value key front [] true)).run (value.flatMap escapeValue)
      = some (reader.into (.value key (front ++ value) [] true)) := by
  induction value generalizing front with
  | nil => simp
  | cons b value ih =>
      have here
          : (reader.into (.value key front [] true)).run (escapeValue b)
            = some (reader.into (.value key (front ++ [b]) [] true)) := by
        rw [escapeValue]
        split_ifs with special feed tab
        · rcases special with rfl | rfl <;>
            simp [step, inValue, into, isSpace, unescape]
        · subst feed
          simp [step, inValue, into, isSpace, unescape]
        · subst tab
          simp [step, inValue, into, isSpace, unescape]
        · rw [not_or] at special
          simp [step, inValue, into, feed, special.1, special.2]
      rw [List.flatMap_cons, run_append, here, Option.bind_some, ih, List.append_assoc,
        List.singleton_append]

/-- A value's bytes outside quotes are kept, spaces at its end apart. -/
theorem run_bare (reader : Reader) (key : Bytes) {value : Bytes}
    (clean : ∀ b ∈ value, b ∉ [34, 92, 35, 59, 10])
    (front spaces : Bytes) (begun : front ++ spaces ≠ [] ∨ value.head?.all (isSpace · = false))
    : ∃ solid spaces',
        (reader.into (.value key front spaces false)).run value
          = some (reader.into (.value key solid spaces' false))
        ∧ solid ++ spaces' = front ++ spaces ++ value
        ∧ (value.getLast?.any (isSpace · = false) → spaces' = []) := by
  induction value generalizing front spaces with
  | nil => exact ⟨front, spaces, rfl, by simp, by simp⟩
  | cons b value ih =>
      obtain ⟨here, later⟩ := List.forall_mem_cons.mp clean
      simp only [List.mem_cons, List.not_mem_nil, or_false, not_or] at here
      obtain ⟨quote, backslash, hash, semicolon, feed⟩ := here
      cases space : isSpace b with
      | true =>
          have some_ : front ++ spaces ≠ [] := by
            simpa [space] using begun
          have moved
              : (reader.into (.value key front spaces false)).step b
                = some (reader.into (.value key front (spaces ++ [b]) false)) := by
            simp only [step, into, inValue, feed, space, some_]
            rfl
          obtain ⟨solid, spaces', runs, whole, bare⟩ :=
            ih later front (spaces ++ [b]) (.inl (by simp))
          refine ⟨solid, spaces', by rw [run_cons, moved, Option.bind_some, runs], by
            rw [whole]; simp, fun last => ?_⟩
          cases value with
          | nil => simp [space] at last
          | cons next value => exact bare (by simpa using last)
      | false =>
          have moved
              : (reader.into (.value key front spaces false)).step b
                = some (reader.into (.value key (front ++ spaces ++ [b]) [] false)) := by
            simp [step, into, inValue, feed, space, quote, backslash, hash, semicolon]
          obtain ⟨solid, spaces', runs, whole, bare⟩ :=
            ih later (front ++ spaces ++ [b]) [] (.inl (by simp))
          refine ⟨solid, spaces', by rw [run_cons, moved, Option.bind_some, runs], by
            rw [whole]; simp, fun last => ?_⟩
          cases value with
          | nil =>
              cases Option.some.inj runs
              rfl
          | cons next value => exact bare (by simpa using last)

end Reader

/-- Between quotes every value can be written. -/
theorem writesValue_quoted (value : Bytes)
    : WritesValue ([34] ++ value.flatMap escapeValue ++ [34]) value where
  clean := by
    have escaped : 10 ∉ value.flatMap escapeValue := by
      rw [List.mem_flatMap]
      rintro ⟨b, -, inside⟩
      rw [escapeValue] at inside
      split_ifs at inside with special feed tab
      · rcases special with rfl | rfl <;> simp at inside
      · simp at inside
      · simp at inside
      · exact feed (by simpa [eq_comm] using inside)
    simp [escaped]
  last := by
    rw [List.getLast?_concat]
    decide
  reads reader key := by
    have opened
        : (reader.into (.value key [] [] false)).run [34]
          = some (reader.into (.value key [] [] true)) :=
      rfl
    rw [List.append_assoc, List.append_assoc, Reader.run_append, opened, Option.bind_some,
      Reader.run_append, Reader.run_escapeValue, Option.bind_some]
    simp [Reader.step, Reader.inValue, Reader.into, Reader.emit, isSpace]

theorem writesValue_bare {value : Bytes} (clean : ∀ b ∈ value, b ∉ [34, 92, 35, 59, 10])
    (first : value.head?.all (isSpace · = false)) (last : value.getLast?.all (isSpace · = false))
    : WritesValue value value where
  clean inside := clean 10 inside (by decide)
  last carriage := by
    rw [carriage] at last
    exact absurd last (by decide)
  reads reader key := by
    obtain ⟨solid, spaces, runs, whole, bare⟩ :=
      Reader.run_bare reader key clean [] [] (.inr first)
    rw [List.nil_append, List.nil_append] at whole
    have none_ : spaces = [] := by
      cases value using List.reverseRecOn with
      | nil => exact (List.append_eq_nil_iff.mp whole).2
      | append_singleton front b => exact bare (by simpa using last)
    rw [none_, List.append_nil] at whole
    rw [Reader.run_append, runs, Option.bind_some, none_, whole]
    rfl

/-- A byte that stands for itself in a section's name and in a key. -/
def isPlain (b : UInt8) : Bool :=
  isKeyChar b && toLower b = b

theorem not_space_of_isKeyChar {b : UInt8} (keyChar : isKeyChar b = true)
    : isSpace b = false ∧ b ≠ 10 ∧ b ≠ 93 := by
  refine ⟨?_, ?_, ?_⟩
  · by_contra space
    simp only [isSpace, Bool.not_eq_false, Bool.or_eq_true, decide_eq_true_eq] at space
    rcases space with ((rfl | rfl) | rfl) | rfl <;> exact absurd keyChar (by decide)
  · rintro rfl
    exact absurd keyChar (by decide)
  · rintro rfl
    exact absurd keyChar (by decide)

namespace Reader

variable {name : Bytes}

theorem run_plainHeader (reader : Reader) (plain : name.all isPlain) (front : Bytes)
    : (reader.into (.header front)).run name = some (reader.into (.header (front ++ name))) := by
  induction name generalizing front with
  | nil => simp
  | cons b name ih =>
      rw [List.all_cons, Bool.and_eq_true] at plain
      obtain ⟨here, later⟩ := plain
      obtain ⟨keyChar, lower⟩ := Bool.and_eq_true_iff.mp here
      obtain ⟨space, feed, closing⟩ := not_space_of_isKeyChar keyChar
      have moved
          : (reader.into (.header front)).step b
            = some (reader.into (.header (front ++ [b]))) := by
        simp [step, into, keyChar, space, feed, closing, of_decide_eq_true lower]
      rw [run_cons, moved, Option.bind_some, ih later, List.append_assoc, List.singleton_append]

theorem run_plainKey (reader : Reader) (plain : name.all isPlain) (front : Bytes)
    : (reader.into (.key front)).run name = some (reader.into (.key (front ++ name))) := by
  induction name generalizing front with
  | nil => simp
  | cons b name ih =>
      rw [List.all_cons, Bool.and_eq_true] at plain
      obtain ⟨here, later⟩ := plain
      obtain ⟨keyChar, lower⟩ := Bool.and_eq_true_iff.mp here
      have moved
          : (reader.into (.key front)).step b = some (reader.into (.key (front ++ [b]))) := by
        simp [step, into, keyChar, of_decide_eq_true lower]
      rw [run_cons, moved, Option.bind_some, ih later, List.append_assoc, List.singleton_append]

theorem run_header {reader : Reader} (idle : reader.mode = .idle) (plain : name.all isPlain)
    {subsection : Bytes} (clean : 10 ∉ subsection)
    : reader.run ([91] ++ name ++ [32, 34] ++ subsection.flatMap escapeName ++ [34, 93])
      = some (reader.enter (name ++ [46] ++ subsection)) := by
  have opened : reader.run [91] = some (reader.into (.header [])) := by
    simp [step, idle, isSpace]
  have between (front : Bytes)
      : (reader.into (.header front)).run [32, 34]
        = some (reader.into (.subsection (front ++ [46]))) :=
    rfl
  have closed (front : Bytes)
      : (reader.into (.subsection front)).run [34, 93] = some (reader.enter front) :=
    rfl
  rw [run_append, run_append, run_append, run_append, opened, Option.bind_some,
    run_plainHeader reader plain, Option.bind_some, between, Option.bind_some,
    run_escapeName reader clean, Option.bind_some, closed, List.nil_append]

theorem run_bareHeader {reader : Reader} (idle : reader.mode = .idle) (plain : name.all isPlain)
    : reader.run ([91] ++ name ++ [93]) = some (reader.enter name) := by
  have opened : reader.run [91] = some (reader.into (.header [])) := by
    simp [step, idle, isSpace]
  have closed : (reader.into (.header name)).run [93] = some (reader.enter name) :=
    rfl
  rw [run_append, run_append, opened, Option.bind_some, run_plainHeader reader plain,
    Option.bind_some, List.nil_append, closed]

/-- A setting on a line of its own, behind a tab. -/
theorem run_setting {reader : Reader} (idle : reader.mode = .idle) {first : UInt8}
    (alpha : isAlpha first = true) (plain : (first :: name).all isPlain) {written value : Bytes}
    (writes : WritesValue written value)
    : reader.run ([9] ++ first :: name ++ [32, 61, 32] ++ written ++ [10])
      = some (reader.emit (reader.stem ++ first :: name) (some value)) := by
  rw [List.all_cons, Bool.and_eq_true] at plain
  obtain ⟨here, later⟩ := plain
  obtain ⟨keyChar, lower⟩ := Bool.and_eq_true_iff.mp here
  obtain ⟨space, -, -⟩ := not_space_of_isKeyChar keyChar
  have marks : first ≠ 35 ∧ first ≠ 59 ∧ first ≠ 91 := by
    refine ⟨?_, ?_, ?_⟩ <;>
      · rintro rfl
        exact absurd alpha (by decide)
  have begun
      : reader.run [9, first] = some (reader.into (.key (reader.stem ++ [first]))) := by
    have tab : reader.step 9 = some reader := by
      rw [step, idle]
      rfl
    rw [run_cons, tab, Option.bind_some]
    simp [step, idle, space, alpha, marks, of_decide_eq_true lower]
  have equals (key : Bytes)
      : (reader.into (.key key)).run [32, 61, 32]
        = some (reader.into (.value key [] [] false)) :=
    rfl
  have split
      : [9] ++ first :: name ++ [32, 61, 32] ++ written ++ [10]
        = [9, first] ++ (name ++ ([32, 61, 32] ++ (written ++ [10]))) := by
    simp
  rw [split, run_append, begun, Option.bind_some, run_append, run_plainKey reader later,
    Option.bind_some, run_append, equals, Option.bind_some, writes.reads, List.append_assoc,
    List.singleton_append]

end Reader

-- Texts of whole lines

/-- Its line ends are line feeds alone, the last of them too. -/
def Lined (text : Bytes) : Prop :=
  ∀ rest, joined (text ++ rest) = text ++ joined rest

theorem lined_nil : Lined [] :=
  fun _ => rfl

theorem Lined.append {front back : Bytes} (first : Lined front) (second : Lined back)
    : Lined (front ++ back) := by
  intro rest
  rw [List.append_assoc, first, second, List.append_assoc]

theorem lined_line {line : Bytes} (clean : 10 ∉ line) (last : line.getLast? ≠ some 13)
    : Lined (line ++ [10]) := by
  intro rest
  rw [List.append_assoc, List.append_assoc]
  exact joined_line clean last

theorem Lined.flatMap {α : Type} {list : List α} {write : α → Bytes}
    (all : ∀ a ∈ list, Lined (write a))
    : Lined (list.flatMap write) := by
  induction list with
  | nil => exact lined_nil
  | cons a list ih =>
      obtain ⟨here, later⟩ := List.forall_mem_cons.mp all
      rw [List.flatMap_cons]
      exact here.append (ih later)

theorem Lined.joined_eq (lined : Lined text) : joined text = text := by
  have whole := lined []
  rwa [List.append_nil, show joined [] = [] from rfl, List.append_nil] at whole

/-- Between settings, and under a stem where one is given, a text adds its settings. -/
def Adds (stem : Option Bytes) (text : Bytes) (settings : List Setting) : Prop :=
  ∀ reader : Reader, reader.mode = .idle → (∀ name ∈ stem, reader.stem = name)
    → ∃ after,
      reader.run text = some after
      ∧ after.mode = .idle
      ∧ (∀ name ∈ stem, after.stem = name)
      ∧ after.settings = reader.settings ++ settings

theorem adds_nil (stem : Option Bytes) : Adds stem [] [] := by
  intro reader idle same
  exact ⟨reader, rfl, idle, same, (List.append_nil _).symm⟩

theorem Adds.append {stem : Option Bytes} {front back : Bytes} {earlier later : List Setting}
    (first : Adds stem front earlier) (second : Adds stem back later)
    : Adds stem (front ++ back) (earlier ++ later) := by
  intro reader idle same
  obtain ⟨between, reads, idle', same', settings⟩ := first reader idle same
  obtain ⟨after, reads', idle'', same'', settings'⟩ := second between idle' same'
  refine ⟨after, ?_, idle'', same'', ?_⟩
  · rw [Reader.run_append, reads, Option.bind_some, reads']
  · rw [settings', settings, List.append_assoc]

theorem Adds.flatMap {stem : Option Bytes} {α : Type} {list : List α} {write : α → Bytes}
    {read : α → List Setting} (all : ∀ a ∈ list, Adds stem (write a) (read a))
    : Adds stem (list.flatMap write) (list.flatMap read) := by
  induction list with
  | nil => exact adds_nil stem
  | cons a list ih =>
      obtain ⟨here, later⟩ := List.forall_mem_cons.mp all
      rw [List.flatMap_cons, List.flatMap_cons]
      exact here.append (ih later)

theorem Adds.under {stem : Bytes} {header : Bytes}
    (enters
      : ∀ reader : Reader, reader.mode = .idle
        → ∃ inside,
          reader.run header = some inside
          ∧ inside.mode = .idle
          ∧ inside.stem = stem
          ∧ inside.settings = reader.settings)
    (adds : Adds (some stem) text settings)
    : Adds none (header ++ text) settings := by
  intro reader idle _
  obtain ⟨inside, entered, idle', here, same⟩ := enters reader idle
  have same' : ∀ name ∈ some stem, inside.stem = name := by
    rintro name ⟨⟩
    exact here
  obtain ⟨after, reads, idle'', _, settings'⟩ := adds inside idle' same'
  refine ⟨after, ?_, idle'', fun name held => (Option.not_mem_none name held).elim, ?_⟩
  · rw [Reader.run_append, entered, Option.bind_some, reads]
  · rw [settings', same]

theorem read_of_adds (plain : text.head? ≠ some 239) (lined : Lined text)
    (adds : Adds none text settings)
    : read text = some settings := by
  obtain ⟨after, reads, idle, _, same⟩ := adds .start rfl fun name held => by cases held
  have whole : body text = some text :=
    body.eq_3 _ (fun rest marked => plain (by rw [marked]; rfl))
      (fun rest marked => plain (by rw [marked]; rfl))
  rw [read, whole]
  simp only [Option.bind_eq_bind, Option.bind_some, lined.joined_eq, Reader.run_append, reads,
    Reader.run_cons, Reader.step_idle_newline idle, Reader.run_nil, Option.pure_def, same]
  rfl

end Gfs.Git.Config
