import Gfs.Mount.Seeding
import Gfs.Service.Odb

/-! The remotes that a workspace copies of its clone (`gfs-mount/src/gitdir.rs`): what
`git config --null` prints of them is parsed, written as sections, and read back by Git.
-/

namespace Gfs.Mount.Remotes

open Gfs.Types
open Gfs.Git
open Gfs.Mount.Seeding
open Gfs.Service.Odb

-- The source

def nul : Char :=
  Char.ofNat 0

def localRemote : Text :=
  "local".toList

/-- All that a workspace copies of its clone: its remotes by name, each with its settings in order,
and the settings of no remote or branch, under their section.
-/
structure ClonedRemotes extends CloneRemotes where
  remotes : List (Text × List (Text × Text))
  sectionless : List (Text × Text × Text)

/-- What is parsed so far; the branches are in the order of their names. -/
structure Parsing where
  remotes : List (Text × List (Text × Text))
  sectionless : List (Text × Text × Text)
  branches : List (Text × Option Text × Option Text)

/-- Push a setting of a remote, which is new if it has none yet. -/
def addSetting (name : Text) (setting : Text × Text)
    : List (Text × List (Text × Text)) → List (Text × List (Text × Text))
  | [] => [(name, [setting])]
  | (other, settings) :: rest =>
      if other = name then (other, settings ++ [setting]) :: rest
      else (other, settings) :: addSetting name setting rest

/-- Change the slot of a branch, which is empty if it has none yet. -/
def changeSlot (name : Text) (change : Option Text × Option Text → Option Text × Option Text)
    : List (Text × Option Text × Option Text) → List (Text × Option Text × Option Text)
  | [] => [(name, change (none, none))]
  | (other, slot) :: rest =>
      match compare name.utf8 other.utf8 with
      | .lt => (name, change (none, none)) :: (other, slot) :: rest
      | .eq => (other, change slot) :: rest
      | .gt => (other, slot) :: changeSlot name change rest

/-- One printed setting. -/
def parseEntry (state : Parsing) (entry : Text) : Parsing :=
  let (key, value) := (splitOnce '\n' entry).getD (entry, "true".toList)
  match stripPrefix "remote.".toList key with
  | some rest =>
      match rsplitOnce '.' rest with
      | none =>
          { state with sectionless := state.sectionless ++ [("remote".toList, rest, value)] }
      | some (name, var) => { state with remotes := addSetting name (var, value) state.remotes }
  | none =>
      match stripPrefix "branch.".toList key with
      | none => state
      | some rest =>
          match rsplitOnce '.' rest with
          | none =>
              { state with sectionless := state.sectionless ++ [("branch".toList, rest, value)] }
          | some (name, var) =>
              let change (slot : Option Text × Option Text) :=
                if var = "remote".toList then (some value, slot.2)
                else if var = "merge".toList then (slot.1, some value)
                else slot
              { state with branches := changeSlot name change state.branches }

/-- The clone as a remote, named by its path. -/
def localSettings (clone : Text) : List (Text × Text) :=
  [("url".toList, clone),
    ("fetch".toList, "+refs/heads/*:refs/remotes/local/*".toList)]

/-- The upstream of a branch with both settings; `.` is the clone itself. -/
def upstreamOf (localAdded : Bool) : Text × Option Text × Option Text → Option (Text × Upstream)
  | (name, some remote, some merge) =>
      if remote = ['.'] then
        if localAdded then some (name, ⟨localRemote, merge⟩) else none
      else some (name, ⟨remote, merge⟩)
  | _ => none

def parse (clone : Text) (text : Text) : ClonedRemotes :=
  let state := ((text.splitOn nul).filter (· ≠ [])).foldl parseEntry ⟨[], [], []⟩
  let localAdded := !state.remotes.any (·.1 = localRemote)
  {
    upstreams := state.branches.filterMap (upstreamOf localAdded)
    localAdded
    remotes :=
      if localAdded then state.remotes ++ [(localRemote, localSettings clone)] else state.remotes
    sectionless := state.sectionless
  }

/-- The line of a setting. -/
def settingText (var value : Text) : Text :=
  "\t".toList ++ var ++ " = ".toList ++ configValue value ++ "\n".toList

/-- The sections, each value reading back as the clone's did. -/
def ClonedRemotes.configSections (cloned : ClonedRemotes) : Text :=
  cloned.sectionless.flatMap (fun (name, var, value) =>
      "[".toList ++ name ++ "]\n".toList ++ settingText var value)
    ++ cloned.remotes.flatMap fun (name, settings) =>
      "[remote \"".toList ++ escapeSubsection name ++ "\"]\n".toList
        ++ settings.flatMap fun (var, value) => settingText var value

-- What Git prints

/-- A variable, in the letters Git prints: a letter, and then letters, digits and hyphens. -/
def IsVariable (var : Text) : Prop :=
  ∃ first rest,
    var.utf8 = first :: rest
    ∧ Config.isAlpha first = true
    ∧ (first :: rest).all Config.isPlain = true

/-- A setting of the clone that is asked for; a key alone has no value. -/
structure CloneSetting where
  ofRemote : Bool
  subsection : Option Text
  var : Text
  value : Option Text
  deriving DecidableEq, Repr

namespace CloneSetting

def sectionName (setting : CloneSetting) : Text :=
  if setting.ofRemote then "remote".toList else "branch".toList

/-- The key, in the letters Git prints. -/
def key (setting : CloneSetting) : Text :=
  setting.sectionName ++ '.' :: ((setting.subsection.map (· ++ ['.'])).getD [] ++ setting.var)

/-- A subsection stands on one line, and nothing has a NUL in it. -/
structure Valid (setting : CloneSetting) : Prop where
  subsection : ∀ name ∈ setting.subsection, '\n' ∉ name ∧ nul ∉ name
  var : IsVariable setting.var
  value : ∀ value ∈ setting.value, nul ∉ value

/-- What a key without a value means. -/
def meaning (setting : CloneSetting) : Text :=
  setting.value.getD "true".toList

/-- A setting as `git config --null` prints it, without its end. -/
def entry (setting : CloneSetting) : Text :=
  setting.key ++ (setting.value.map ('\n' :: ·)).getD []

/-- The setting as it is read, once its value is written. -/
def asRead (setting : CloneSetting) : Config.Setting :=
  ⟨setting.key.utf8, some setting.meaning.utf8⟩

end CloneSetting

/-- What `git config --null` prints. -/
def printed (settings : List CloneSetting) : Text :=
  settings.flatMap fun setting => setting.entry ++ [nul]

-- What is parsed of it

theorem mem_utf8 {text : Text} {c : Char} (ascii : c.toNat < 128) (member : c ∈ text)
    : c.toNat.toUInt8 ∈ text.utf8 := by
  obtain ⟨before, after, rfl⟩ := List.append_of_mem member
  have split : before ++ c :: after = before ++ ([c] ++ after) := rfl
  rw [split, Text.utf8_append, Text.utf8_append, Text.utf8_char ascii]
  simp

namespace CloneSetting

variable {setting : CloneSetting}

theorem Valid.var_clean (valid : setting.Valid) {c : Char} (ascii : c.toNat < 128)
    (other : Config.isPlain c.toNat.toUInt8 = false)
    : c ∉ setting.var := by
  obtain ⟨first, rest, bytes, _, plain⟩ := valid.var
  intro member
  have inside := mem_utf8 ascii member
  rw [bytes] at inside
  rw [List.all_eq_true.mp plain _ inside] at other
  cases other

theorem Valid.key_clean (valid : setting.Valid) {c : Char} (special : c = '\n' ∨ c = nul)
    : c ∉ setting.key := by
  have var : c ∉ setting.var := by
    rcases special with rfl | rfl
    · exact valid.var_clean (by decide) (by decide)
    · exact valid.var_clean (by decide) (by decide)
  have name : c ∉ setting.sectionName := by
    unfold sectionName
    rcases special with rfl | rfl <;> split <;> decide
  have dot : c ≠ '.' := by
    rcases special with rfl | rfl <;> decide
  have sub : c ∉ (setting.subsection.map (· ++ ['.'])).getD [] := by
    cases held : setting.subsection with
    | none => simp
    | some subsection =>
        have clean := valid.subsection subsection held
        rcases special with rfl | rfl <;> simp [clean, dot]
  simp [key, var, name, dot, sub]

theorem Valid.entry_clean (valid : setting.Valid) : nul ∉ setting.entry := by
  have key := valid.key_clean (.inr rfl)
  unfold entry
  cases held : setting.value with
  | none => simpa using key
  | some value =>
      have clean := valid.value value held
      have feed : nul ≠ '\n' := by decide
      simp [key, clean, feed]

theorem entry_ne_nil (setting : CloneSetting) : setting.entry ≠ [] := by
  simp [entry, key]

theorem Valid.splitOnce_entry (valid : setting.Valid)
    : (splitOnce '\n' setting.entry).getD (setting.entry, "true".toList)
      = (setting.key, setting.meaning) := by
  have clean := valid.key_clean (.inl rfl)
  unfold entry meaning
  cases setting.value with
  | none =>
      rw [Option.map_none, Option.getD_none, List.append_nil, splitOnce_clean clean]
      rfl
  | some value =>
      rw [Option.map_some, Option.getD_some, splitOnce_append clean]
      rfl

end CloneSetting

variable {settings : List CloneSetting}

theorem entries_printed (valid : ∀ setting ∈ settings, setting.Valid)
    : ((printed settings).splitOn nul).filter (· ≠ []) = settings.map CloneSetting.entry := by
  induction settings with
  | nil => rfl
  | cons setting settings ih =>
      obtain ⟨here, later⟩ := List.forall_mem_cons.mp valid
      have split
          : printed (setting :: settings) = setting.entry ++ nul :: printed settings := by
        simp [printed]
      rw [split, Text.splitOn_append, Text.splitOn_clean here.entry_clean, List.filter_append,
        ih later, List.map_cons]
      simp [setting.entry_ne_nil]

/-- The settings of no remote and no branch, as they are parsed. -/
def sectionlessOf (settings : List CloneSetting) : List (Text × Text × Text) :=
  settings.filterMap fun setting =>
    if setting.subsection = none then some (setting.sectionName, setting.var, setting.meaning)
    else none

/-- The settings of remotes, each with its name. -/
def namedOf (settings : List CloneSetting) : List (Text × Text × Text) :=
  settings.filterMap fun setting =>
    match setting.ofRemote, setting.subsection with
    | true, some name => some (name, setting.var, setting.meaning)
    | _, _ => none

theorem sectionlessOf_append (first second : List CloneSetting)
    : sectionlessOf (first ++ second) = sectionlessOf first ++ sectionlessOf second :=
  List.filterMap_append

theorem namedOf_append (first second : List CloneSetting)
    : namedOf (first ++ second) = namedOf first ++ namedOf second :=
  List.filterMap_append

/-- The settings in the order they are given, remote by remote. -/
def grouped (named : List (Text × Text × Text)) : List (Text × List (Text × Text)) :=
  named.foldl (fun remotes setting => addSetting setting.1 setting.2 remotes) []

/-- A setting is parsed under its remote or its section. -/
theorem parseEntry_entry {setting : CloneSetting} (valid : setting.Valid) (state : Parsing)
    : (parseEntry state setting.entry).remotes
        = (namedOf [setting]).foldl
            (fun remotes setting => addSetting setting.1 setting.2 remotes) state.remotes
      ∧ (parseEntry state setting.entry).sectionless
        = state.sectionless ++ sectionlessOf [setting] := by
  have dot : '.' ∉ setting.var := valid.var_clean (by decide) (by decide)
  obtain ⟨ofRemote, subsection, var, value⟩ := setting
  have parted := valid.splitOnce_entry
  unfold parseEntry
  rw [parted]
  dsimp only at dot ⊢
  cases ofRemote with
  | true =>
      cases subsection with
      | none =>
          have key : (CloneSetting.mk true none var value).key = "remote.".toList ++ var := by
            simp [CloneSetting.key, CloneSetting.sectionName]
          rw [key, stripPrefix_append]
          dsimp only
          rw [rsplitOnce_clean dot]
          exact ⟨rfl, rfl⟩
      | some name =>
          have key : (CloneSetting.mk true (some name) var value).key
              = "remote.".toList ++ (name ++ '.' :: var) := by
            simp [CloneSetting.key, CloneSetting.sectionName]
          rw [key, stripPrefix_append]
          dsimp only
          rw [rsplitOnce_append dot]
          exact ⟨rfl, (List.append_nil _).symm⟩
  | false =>
      have other (rest : Text)
          : stripPrefix "remote.".toList ("branch.".toList ++ rest) = none := by
        rw [stripPrefix, if_neg]
        simp
      cases subsection with
      | none =>
          have key : (CloneSetting.mk false none var value).key = "branch.".toList ++ var := by
            simp [CloneSetting.key, CloneSetting.sectionName]
          rw [key, other, stripPrefix_append]
          dsimp only
          rw [rsplitOnce_clean dot]
          exact ⟨rfl, rfl⟩
      | some name =>
          have key : (CloneSetting.mk false (some name) var value).key
              = "branch.".toList ++ (name ++ '.' :: var) := by
            simp [CloneSetting.key, CloneSetting.sectionName]
          rw [key, other, stripPrefix_append]
          dsimp only
          rw [rsplitOnce_append dot]
          exact ⟨rfl, (List.append_nil _).symm⟩

theorem foldl_parseEntry
    (valid : ∀ setting ∈ settings, setting.Valid)
    : ((settings.map CloneSetting.entry).foldl parseEntry ⟨[], [], []⟩).remotes
        = grouped (namedOf settings)
      ∧ ((settings.map CloneSetting.entry).foldl parseEntry ⟨[], [], []⟩).sectionless
        = sectionlessOf settings := by
  induction settings using List.reverseRecOn with
  | nil => exact ⟨rfl, rfl⟩
  | append_singleton settings setting ih =>
      obtain ⟨earlier, last⟩ := List.forall_mem_append.mp valid
      obtain ⟨remotes, sectionless⟩ := ih earlier
      obtain ⟨named, unnamed⟩ := parseEntry_entry (last setting List.mem_cons_self)
        ((settings.map CloneSetting.entry).foldl parseEntry ⟨[], [], []⟩)
      rw [List.map_append, List.foldl_append]
      refine ⟨named.trans ?_, unnamed.trans ?_⟩
      · rw [remotes, namedOf_append, grouped, grouped, List.foldl_append]
      · rw [sectionless, sectionlessOf_append]

-- Groups

/-- What a list of remotes has for a name. -/
def settingsOf (name : Text) (remotes : List (Text × List (Text × Text))) : List (Text × Text) :=
  (remotes.filter (·.1 = name)).flatMap Prod.snd

variable {name : Text} {setting : Text × Text} {remotes : List (Text × List (Text × Text))}
  {sectionless : List (Text × Text × Text)}

theorem mem_addSetting {other : Text}
    : other ∈ (addSetting name setting remotes).map Prod.fst
      ↔ other = name ∨ other ∈ remotes.map Prod.fst := by
  induction remotes with
  | nil => simp [addSetting]
  | cons remote remotes ih =>
      obtain ⟨held, settings⟩ := remote
      rw [addSetting]
      split
      · rename_i same
        rw [List.map_cons, List.map_cons, List.mem_cons, same]
        exact ⟨.inr, fun either => either.elim .inl id⟩
      · rw [List.map_cons, List.map_cons, List.mem_cons, List.mem_cons, ih]
        exact or_left_comm

theorem nodup_addSetting (once : (remotes.map Prod.fst).Nodup)
    : ((addSetting name setting remotes).map Prod.fst).Nodup := by
  induction remotes with
  | nil => simp [addSetting]
  | cons remote remotes ih =>
      obtain ⟨held, settings⟩ := remote
      rw [List.map_cons, List.nodup_cons] at once
      rw [addSetting]
      split
      · exact List.nodup_cons.mpr once
      · rename_i apart
        refine List.nodup_cons.mpr ⟨fun member => ?_, ih once.2⟩
        exact (mem_addSetting.mp member).elim apart once.1

theorem settingsOf_absent (absent : name ∉ remotes.map Prod.fst)
    : settingsOf name remotes = [] := by
  have none : remotes.filter (·.1 = name) = [] :=
    List.filter_eq_nil_iff.mpr fun remote member same =>
      absent (List.mem_map.mpr ⟨remote, member, of_decide_eq_true same⟩)
  rw [settingsOf, none]
  rfl

theorem settingsOf_cons (name other : Text) (settings : List (Text × Text))
    (remotes : List (Text × List (Text × Text)))
    : settingsOf name ((other, settings) :: remotes)
      = (if other = name then settings else []) ++ settingsOf name remotes := by
  unfold settingsOf
  by_cases same : other = name <;> simp [same]

theorem settingsOf_addSetting (once : (remotes.map Prod.fst).Nodup) (other : Text)
    : settingsOf other (addSetting name setting remotes)
      = settingsOf other remotes ++ if name = other then [setting] else [] := by
  induction remotes with
  | nil =>
      rw [addSetting, settingsOf_cons]
      exact List.append_nil _
  | cons remote remotes ih =>
      obtain ⟨held, settings⟩ := remote
      rw [List.map_cons, List.nodup_cons] at once
      rw [addSetting]
      by_cases same : held = name
      · subst same
        rw [if_pos rfl, settingsOf_cons, settingsOf_cons]
        by_cases own : held = other
        · subst own
          rw [if_pos rfl, if_pos rfl, if_pos rfl, settingsOf_absent once.1, List.append_nil,
            List.append_nil]
        · rw [if_neg own, if_neg own, if_neg own, List.append_nil]
      · rw [if_neg same, settingsOf_cons, settingsOf_cons, ih once.2, List.append_assoc]

theorem settingsOf_grouped (named : List (Text × Text × Text))
    : ((grouped named).map Prod.fst).Nodup
      ∧ ∀ name, settingsOf name (grouped named) = (named.filter (·.1 = name)).map Prod.snd := by
  induction named using List.reverseRecOn with
  | nil => exact ⟨List.nodup_nil, fun _ => rfl⟩
  | append_singleton named setting ih =>
      obtain ⟨once, held⟩ := ih
      have pushed
          : grouped (named ++ [setting]) = addSetting setting.1 setting.2 (grouped named) := by
        rw [grouped, List.foldl_append]
        rfl
      rw [pushed]
      refine ⟨nodup_addSetting once, fun name => ?_⟩
      rw [settingsOf_addSetting once, held, List.filter_append, List.map_append]
      by_cases own : setting.1 = name <;> simp [own]

-- The sections in bytes

/-- The front of a remote's keys. -/
def remoteStem (name : Text) : Bytes :=
  remoteName ++ [46] ++ name.utf8 ++ [46]

/-- A setting without a subsection, as it is read. -/
def readBare (setting : Text × Text × Text) : Config.Setting :=
  ⟨setting.1.utf8 ++ [46] ++ setting.2.1.utf8, some setting.2.2.utf8⟩

/-- A setting of a remote, as it is read. -/
def readNamed (name : Text) (setting : Text × Text) : Config.Setting :=
  ⟨remoteStem name ++ setting.1.utf8, some setting.2.utf8⟩

/-- What is written without a subsection can be. -/
def BareValid (setting : Text × Text × Text) : Prop :=
  (setting.1 = "remote".toList ∨ setting.1 = "branch".toList)
  ∧ IsVariable setting.2.1
  ∧ nul ∉ setting.2.2

/-- What is written of a remote can be. -/
def RemoteValid (remote : Text × List (Text × Text)) : Prop :=
  '\n' ∉ remote.1
  ∧ nul ∉ remote.1
  ∧ ∀ setting ∈ remote.2, IsVariable setting.1 ∧ nul ∉ setting.2

theorem utf8_clean {text : Text} (noNul : nul ∉ text) : 0 ∉ text.utf8 :=
  notMem_utf8 (c := nul) (by decide) noNul

theorem IsVariable.clean {var : Text} (isVariable : IsVariable var) {b : UInt8}
    (other : Config.isPlain b = false)
    : b ∉ var.utf8 := by
  obtain ⟨first, rest, bytes, _, plain⟩ := isVariable
  intro inside
  rw [bytes] at inside
  rw [List.all_eq_true.mp plain _ inside] at other
  cases other

theorem utf8_settingText (var value : Text)
    : Text.utf8 (settingText var value)
      = settingLine var.utf8 (Text.utf8 (configValue value)) ++ [10] := by
  have tab : Text.utf8 "\t".toList = [9] := by decide
  have equals : Text.utf8 " = ".toList = [32, 61, 32] := by decide
  have feed : Text.utf8 "\n".toList = [10] := by decide
  rw [settingText, Text.utf8_append, Text.utf8_append, Text.utf8_append, Text.utf8_append, tab,
    equals, feed, settingLine]

theorem settingText_adds {stem : Bytes} (stemClean : 0 ∉ stem) {var value : Text}
    (isVariable : IsVariable var) (noNul : nul ∉ value)
    : Config.Lined (Text.utf8 (settingText var value))
      ∧ Config.Adds (some stem) (Text.utf8 (settingText var value))
        [⟨stem ++ var.utf8, some value.utf8⟩] := by
  have writes := writes_configValue value
  rw [utf8_settingText]
  constructor
  · obtain ⟨clean, last⟩ := settingLine_clean (isVariable.clean (by decide)) writes
    exact Config.lined_line clean last
  · intro reader idle same
    have keyClean : 0 ∉ stem ++ var.utf8 := by
      simp [stemClean, isVariable.clean (b := 0) (by decide)]
    have here : reader.stem = stem := same stem rfl
    obtain ⟨first, rest, bytes, alpha, plain⟩ := isVariable
    have reads := Config.Reader.run_setting idle alpha plain writes
    rw [← bytes] at reads
    refine ⟨_, reads, rfl, same, ?_⟩
    rw [Config.Reader.emit, here, cString_of_no_nul keyClean, Option.map_some,
      cString_of_no_nul (utf8_clean noNul)]

theorem run_headerLine {reader : Config.Reader} {header name : Bytes}
    (reads : reader.run header = some (reader.enter name))
    : ∃ inside,
        reader.run (header ++ [10]) = some inside
        ∧ inside.mode = .idle
        ∧ inside.stem = name ++ [46]
        ∧ inside.settings = reader.settings := by
  refine ⟨reader.enter name, ?_, rfl, rfl, rfl⟩
  have idle : (reader.enter name).mode = .idle := rfl
  rw [Config.Reader.run_append, reads, Option.bind_some, Config.Reader.run_cons,
    Config.Reader.step_idle_newline idle, Option.bind_some, Config.Reader.run_nil]

/-- A setting without a subsection is read back. -/
theorem bare_adds {setting : Text × Text × Text} (valid : BareValid setting)
    : Config.Lined
        (Text.utf8
          ("[".toList ++ setting.1 ++ "]\n".toList ++ settingText setting.2.1 setting.2.2))
      ∧ Config.Adds none
        (Text.utf8
          ("[".toList ++ setting.1 ++ "]\n".toList ++ settingText setting.2.1 setting.2.2))
        [readBare setting] := by
  obtain ⟨known, isVariable, noNul⟩ := valid
  have opened : Text.utf8 "[".toList = [91] := by decide
  have closed : Text.utf8 "]\n".toList = [93] ++ [10] := by decide
  have plain
      : setting.1.utf8.all Config.isPlain = true
        ∧ 0 ∉ setting.1.utf8
        ∧ 10 ∉ setting.1.utf8 := by
    rcases known with known | known <;> rw [known] <;> decide
  obtain ⟨plain, zero, feed⟩ := plain
  have stemClean : 0 ∉ setting.1.utf8 ++ [46] := by
    simp [zero]
  obtain ⟨lined, adds⟩ := settingText_adds stemClean isVariable noNul
  have split
      : Text.utf8 ("[".toList ++ setting.1 ++ "]\n".toList ++ settingText setting.2.1 setting.2.2)
        = [91] ++ setting.1.utf8 ++ [93] ++ [10]
          ++ Text.utf8 (settingText setting.2.1 setting.2.2) := by
    rw [Text.utf8_append, Text.utf8_append, Text.utf8_append, opened, closed]
    simp
  rw [split]
  constructor
  · have header : Config.Lined ([91] ++ setting.1.utf8 ++ [93] ++ [10]) := by
      refine Config.lined_line (by simp [feed]) ?_
      rw [List.getLast?_concat]
      decide
    exact header.append lined
  · exact .under (fun reader idle => run_headerLine (Config.Reader.run_bareHeader idle plain)) adds

/-- The settings of a remote are read back. -/
theorem named_adds {settings : List (Text × Text)} (valid : RemoteValid (name, settings))
    : Config.Lined
        (Text.utf8
          ("[remote \"".toList ++ escapeSubsection name ++ "\"]\n".toList
            ++ settings.flatMap fun (var, value) => settingText var value))
      ∧ Config.Adds none
        (Text.utf8
          ("[remote \"".toList ++ escapeSubsection name ++ "\"]\n".toList
            ++ settings.flatMap fun (var, value) => settingText var value))
        (settings.map (readNamed name)) := by
  obtain ⟨feed, noNul, eachValid⟩ := valid
  have opened : Text.utf8 "[remote \"".toList = [91] ++ remoteName ++ [32, 34] := by
    decide
  have closed : Text.utf8 "\"]\n".toList = [34, 93] ++ [10] := by decide
  have clean : 10 ∉ name.utf8 := notMem_utf8 (c := '\n') (by decide) feed
  have stemClean : 0 ∉ remoteStem name := by
    simp [remoteStem, remoteName, utf8_clean noNul]
  have each (setting : Text × Text) (member : setting ∈ settings) :=
    settingText_adds stemClean (eachValid setting member).1 (eachValid setting member).2
  have split
      : Text.utf8
          ("[remote \"".toList ++ escapeSubsection name ++ "\"]\n".toList
            ++ settings.flatMap fun (var, value) => settingText var value)
        = [91] ++ remoteName ++ [32, 34] ++ name.utf8.flatMap Config.escapeName ++ [34, 93]
          ++ [10] ++ settings.flatMap fun setting =>
            Text.utf8 (settingText setting.1 setting.2) := by
    rw [Text.utf8_append, Text.utf8_append, Text.utf8_append, opened, utf8_escapeSubsection,
      closed, Text.utf8_flatMap]
    simp only [List.append_assoc]
  rw [split]
  constructor
  · have escaped : 10 ∉ name.utf8.flatMap Config.escapeName := Config.escapeName_clean clean
    have header
        : Config.Lined
            ([91] ++ remoteName ++ [32, 34] ++ name.utf8.flatMap Config.escapeName ++ [34, 93]
              ++ [10]) := by
      refine Config.lined_line (by simp [remoteName, escaped]) ?_
      rw [List.getLast?_append_of_ne_nil _ (by simp)]
      decide
    exact header.append (.flatMap fun setting member => (each setting member).1)
  · have all := Config.Adds.flatMap fun setting member => (each setting member).2
    have oneByOne
        : settings.map (readNamed name)
          = settings.flatMap fun setting => [readNamed name setting] :=
      List.map_eq_flatMap
    rw [oneByOne]
    exact .under (fun reader idle => run_headerLine (Config.Reader.run_header idle rfl clean)) all

theorem read_configSections {cloned : ClonedRemotes}
    (sectionless : ∀ setting ∈ cloned.sectionless, BareValid setting)
    (remotes : ∀ remote ∈ cloned.remotes, RemoteValid remote)
    : Config.read (Text.utf8 cloned.configSections)
      = some
          (cloned.sectionless.map readBare
            ++ cloned.remotes.flatMap fun remote => remote.2.map (readNamed remote.1)) := by
  have first : (Text.utf8 cloned.configSections).head? ≠ some 239 := by
    intro marked
    obtain ⟨c, head, inside⟩ := Text.exists_head_of_utf8 marked
    have bracket : c = '[' := by
      unfold ClonedRemotes.configSections at head
      cases held : cloned.sectionless with
      | cons setting rest =>
          rw [held] at head
          exact (Option.some.inj head).symm
      | nil =>
          cases held' : cloned.remotes with
          | cons remote rest =>
              rw [held, held'] at head
              exact (Option.some.inj head).symm
          | nil =>
              rw [held, held'] at head
              cases head
    rw [bracket] at inside
    exact absurd inside (by decide)
  have bare (setting : Text × Text × Text) (member : setting ∈ cloned.sectionless) :=
    bare_adds (sectionless setting member)
  have named (remote : Text × List (Text × Text)) (member : remote ∈ cloned.remotes) :=
    named_adds (remotes remote member)
  have oneByOne
      : cloned.sectionless.map readBare
        = cloned.sectionless.flatMap fun setting => [readBare setting] :=
    List.map_eq_flatMap
  refine Config.read_of_adds first ?_ ?_
  · rw [ClonedRemotes.configSections, Text.utf8_append, Text.utf8_flatMap, Text.utf8_flatMap]
    exact Config.Lined.append (.flatMap fun setting member => (bare setting member).1)
      (.flatMap fun remote member => (named remote member).1)
  · rw [ClonedRemotes.configSections, Text.utf8_append, Text.utf8_flatMap, Text.utf8_flatMap,
      oneByOne]
    exact Config.Adds.append (.flatMap fun setting member => (bare setting member).2)
      (.flatMap fun remote member => (named remote member).2)

-- What is read of them

/-- A key without its variable: the section, and the subsection if there is one. -/
def keyStem (key : Bytes) : Bytes :=
  key.rdropWhile (· ≠ 46)

/-- Whether a key has no subsection. -/
def isBareKey (key : Bytes) : Bool :=
  keyStem key = remoteName ++ [46] || keyStem key = branchName ++ [46]

/-- Whether a setting is of a remote. -/
def CloneSetting.isOf (setting : CloneSetting) (name : Text) : Bool :=
  setting.ofRemote && setting.subsection = some name

theorem keyStem_append (front : Bytes) {var : Bytes} (noDot : 46 ∉ var)
    : keyStem (front ++ [46] ++ var) = front ++ [46] := by
  have other : ∀ b ∈ var.reverse, decide (b ≠ 46) = true :=
    fun b member => decide_eq_true fun dot => noDot (dot ▸ List.mem_reverse.mp member)
  rw [keyStem, List.rdropWhile, List.reverse_append, List.dropWhile_append_of_pos other,
    List.reverse_append, List.reverse_singleton, List.singleton_append,
    List.dropWhile_cons_of_neg (by simp), List.reverse_cons, List.reverse_reverse]

theorem remoteStem_injective : Function.Injective remoteStem := by
  intro left right same
  exact Text.utf8_injective (List.append_cancel_left (List.append_cancel_right same))

theorem keyStem_readNamed (name : Text) (isVariable : IsVariable setting.1)
    : keyStem (readNamed name setting).key = remoteStem name :=
  keyStem_append _ (isVariable.clean (by decide))

theorem keyStem_readBare {setting : Text × Text × Text} (isVariable : IsVariable setting.2.1)
    : keyStem (readBare setting).key = setting.1.utf8 ++ [46] :=
  keyStem_append _ (isVariable.clean (by decide))

theorem not_bare_of_remote {key : Bytes} (ofRemote : keyStem key = remoteStem name)
    : isBareKey key = false := by
  have long : 8 ≤ (remoteStem name).length := by
    simp [remoteStem, remoteName]
  rw [isBareKey, ofRemote, Bool.or_eq_false_iff]
  constructor
  · exact decide_eq_false fun same => absurd long (by rw [same]; decide)
  · exact decide_eq_false fun same => absurd long (by rw [same]; decide)

theorem isBareKey_readBare {setting : Text × Text × Text}
    (known : setting.1 = "remote".toList ∨ setting.1 = "branch".toList)
    (isVariable : IsVariable setting.2.1)
    : isBareKey (readBare setting).key = true := by
  have remote : Text.utf8 "remote".toList = remoteName := by decide
  have branch : Text.utf8 "branch".toList = branchName := by decide
  rw [isBareKey, keyStem_readBare isVariable, Bool.or_eq_true]
  rcases known with known | known
  · exact .inl (decide_eq_true (by rw [known, remote]))
  · exact .inr (decide_eq_true (by rw [known, branch]))

/-- What is read of a remote is what its section has. -/
theorem filter_remote (bareValid : ∀ setting ∈ sectionless, BareValid setting)
    (valid : ∀ remote ∈ remotes, RemoteValid remote) (name : Text)
    : (sectionless.map readBare
        ++ remotes.flatMap fun remote => remote.2.map (readNamed remote.1)).filter
          (keyStem ·.key = remoteStem name)
      = (settingsOf name remotes).map (readNamed name) := by
  have bare : (sectionless.map readBare).filter (keyStem ·.key = remoteStem name) = [] := by
    rw [List.filter_eq_nil_iff]
    intro setting member ofRemote
    obtain ⟨source, listed, rfl⟩ := List.mem_map.mp member
    obtain ⟨known, isVariable, _⟩ := bareValid source listed
    have not_ := not_bare_of_remote (of_decide_eq_true ofRemote)
    rw [isBareKey_readBare known isVariable] at not_
    cases not_
  rw [List.filter_append, bare, List.nil_append]
  induction remotes with
  | nil => rfl
  | cons remote remotes ih =>
      obtain ⟨here, later⟩ := List.forall_mem_cons.mp valid
      obtain ⟨other, settings⟩ := remote
      have stems : ∀ setting ∈ settings.map (readNamed other),
          keyStem setting.key = remoteStem other := by
        intro setting member
        obtain ⟨source, listed, rfl⟩ := List.mem_map.mp member
        exact keyStem_readNamed other (here.2.2 source listed).1
      rw [List.flatMap_cons, List.filter_append, ih later, settingsOf_cons, List.map_append]
      refine congrArg (· ++ _) ?_
      by_cases same : other = name
      · subst same
        rw [if_pos rfl]
        exact List.filter_eq_self.mpr fun setting member => decide_eq_true (stems setting member)
      · rw [if_neg same, List.map_nil, List.filter_eq_nil_iff]
        intro setting member ofRemote
        rw [stems setting member] at ofRemote
        exact same (remoteStem_injective (of_decide_eq_true ofRemote))

/-- What is read without a subsection is what is written so. -/
theorem filter_bare (bareValid : ∀ setting ∈ sectionless, BareValid setting)
    (valid : ∀ remote ∈ remotes, RemoteValid remote)
    : (sectionless.map readBare
        ++ remotes.flatMap fun remote => remote.2.map (readNamed remote.1)).filter
          (isBareKey ·.key)
      = sectionless.map readBare := by
  have bare
      : (sectionless.map readBare).filter (isBareKey ·.key) = sectionless.map readBare := by
    refine List.filter_eq_self.mpr fun setting member => ?_
    obtain ⟨source, listed, rfl⟩ := List.mem_map.mp member
    exact isBareKey_readBare (bareValid source listed).1 (bareValid source listed).2.1
  have named
      : (remotes.flatMap fun remote => remote.2.map (readNamed remote.1)).filter (isBareKey ·.key)
        = [] := by
    rw [List.filter_eq_nil_iff]
    intro setting member isBare
    obtain ⟨remote, listed, inside⟩ := List.mem_flatMap.mp member
    obtain ⟨source, held, rfl⟩ := List.mem_map.mp inside
    rw [not_bare_of_remote
      (keyStem_readNamed remote.1 ((valid remote listed).2.2 source held).1)] at isBare
    cases isBare
  rw [List.filter_append, bare, named, List.append_nil]

theorem bare_or_remote (bareValid : ∀ setting ∈ sectionless, BareValid setting)
    (valid : ∀ remote ∈ remotes, RemoteValid remote) {setting : Config.Setting}
    (member
      : setting ∈ sectionless.map readBare
        ++ remotes.flatMap fun remote => remote.2.map (readNamed remote.1))
    : isBareKey setting.key = true ∨ ∃ name, keyStem setting.key = remoteStem name := by
  rcases List.mem_append.mp member with bare | named
  · obtain ⟨source, listed, rfl⟩ := List.mem_map.mp bare
    exact .inl (isBareKey_readBare (bareValid source listed).1 (bareValid source listed).2.1)
  · obtain ⟨remote, listed, inside⟩ := List.mem_flatMap.mp named
    obtain ⟨source, held, rfl⟩ := List.mem_map.mp inside
    exact .inr ⟨remote.1, keyStem_readNamed remote.1 ((valid remote listed).2.2 source held).1⟩

-- The clone's settings again

theorem names_grouped (named : List (Text × Text × Text)) (name : Text)
    : name ∈ (grouped named).map Prod.fst ↔ name ∈ named.map Prod.fst := by
  induction named using List.reverseRecOn with
  | nil => exact Iff.rfl
  | append_singleton named setting ih =>
      have pushed
          : grouped (named ++ [setting]) = addSetting setting.1 setting.2 (grouped named) := by
        rw [grouped, List.foldl_append]
        rfl
      rw [pushed, mem_addSetting, ih, List.map_append, List.mem_append, List.map_singleton,
        List.mem_singleton]
      exact or_comm

theorem mem_namedOf {named : Text × Text × Text}
    (member : named ∈ namedOf settings)
    : ∃ setting ∈ settings,
        setting.isOf named.1 = true
        ∧ setting.var = named.2.1
        ∧ setting.meaning = named.2.2 := by
  obtain ⟨setting, listed, found⟩ := List.mem_filterMap.mp member
  obtain ⟨ofRemote, subsection, var, value⟩ := setting
  refine ⟨_, listed, ?_⟩
  cases ofRemote <;> cases subsection <;> cases found
  exact ⟨by simp [CloneSetting.isOf], rfl, rfl⟩

namespace CloneSetting

theorem Valid.meaning_clean {setting : CloneSetting} (valid : setting.Valid)
    : nul ∉ setting.meaning := by
  unfold meaning
  cases held : setting.value with
  | none => decide
  | some value => exact valid.value value held

end CloneSetting

theorem grouped_valid (valid : ∀ setting ∈ settings, setting.Valid)
    : ∀ remote ∈ grouped (namedOf settings), RemoteValid remote := by
  intro remote member
  obtain ⟨named, listed, same⟩ := List.mem_map.mp
    ((names_grouped _ _).mp (List.mem_map_of_mem member))
  obtain ⟨setting, held, ofRemote, _⟩ := mem_namedOf listed
  have name := (valid setting held).subsection remote.1
    (by rw [← same]; exact of_decide_eq_true (Bool.and_eq_true_iff.mp ofRemote).2)
  refine ⟨name.1, name.2, fun pair inside => ?_⟩
  have pushed : pair ∈ settingsOf remote.1 (grouped (namedOf settings)) :=
    List.mem_flatMap.mpr
      ⟨remote, List.mem_filter.mpr ⟨member, decide_eq_true rfl⟩, inside⟩
  rw [(settingsOf_grouped _).2] at pushed
  obtain ⟨named, listed, rfl⟩ := List.mem_map.mp pushed
  obtain ⟨setting, held, -, var, meaning⟩ := mem_namedOf (List.mem_filter.mp listed).1
  exact ⟨var ▸ (valid setting held).var, meaning ▸ (valid setting held).meaning_clean⟩

theorem sectionlessOf_valid
    (valid : ∀ setting ∈ settings, setting.Valid)
    : ∀ setting ∈ sectionlessOf settings, BareValid setting := by
  intro bare member
  obtain ⟨setting, listed, found⟩ := List.mem_filterMap.mp member
  split at found
  · cases found
    refine ⟨?_, (valid setting listed).var, (valid setting listed).meaning_clean⟩
    unfold CloneSetting.sectionName
    split
    · exact .inl rfl
    · exact .inr rfl
  · cases found

/-- The settings without a subsection are read as the clone's. -/
theorem map_sectionlessOf (settings : List CloneSetting)
    : (sectionlessOf settings).map readBare
      = (settings.filter (·.subsection = none)).map CloneSetting.asRead := by
  induction settings with
  | nil => rfl
  | cons setting settings ih =>
      have split := sectionlessOf_append [setting] settings
      rw [List.singleton_append] at split
      rw [split, List.map_append, ih]
      obtain ⟨ofRemote, subsection, var, value⟩ := setting
      cases subsection with
      | some name => simp [sectionlessOf]
      | none =>
          have dot : Text.utf8 ['.'] = [46] := by decide
          have key
              : Text.utf8 (CloneSetting.mk ofRemote none var value).key
                = (CloneSetting.mk ofRemote none var value).sectionName.utf8 ++ [46]
                  ++ var.utf8 := by
            have parts
                : (CloneSetting.mk ofRemote none var value).key
                  = (CloneSetting.mk ofRemote none var value).sectionName ++ ['.'] ++ var := by
              simp [CloneSetting.key]
            rw [parts, Text.utf8_append, Text.utf8_append, dot]
          simp [sectionlessOf, readBare, CloneSetting.asRead, key]

/-- The settings of a remote are read as the clone's. -/
theorem map_namedOf (settings : List CloneSetting) (name : Text)
    : (((namedOf settings).filter (·.1 = name)).map Prod.snd).map (readNamed name)
      = (settings.filter (·.isOf name)).map CloneSetting.asRead := by
  induction settings with
  | nil => rfl
  | cons setting settings ih =>
      have split := namedOf_append [setting] settings
      rw [List.singleton_append] at split
      rw [split, List.filter_append, List.map_append, List.map_append, ih]
      obtain ⟨ofRemote, subsection, var, value⟩ := setting
      cases ofRemote with
      | false => simp [namedOf, CloneSetting.isOf]
      | true =>
          cases subsection with
          | none => simp [namedOf, CloneSetting.isOf]
          | some other =>
              by_cases same : other = name
              · subst same
                have front : Text.utf8 "remote.".toList = remoteName ++ [46] := by
                  decide
                have dot : Text.utf8 ['.'] = [46] := by decide
                have key
                    : Text.utf8 (CloneSetting.mk true (some other) var value).key
                      = remoteStem other ++ var.utf8 := by
                  have parts
                      : (CloneSetting.mk true (some other) var value).key
                        = "remote.".toList ++ other ++ ['.'] ++ var := by
                    simp [CloneSetting.key, CloneSetting.sectionName]
                  rw [parts, Text.utf8_append, Text.utf8_append, Text.utf8_append, front, dot,
                    remoteStem]
                simp [namedOf, CloneSetting.isOf, readNamed, CloneSetting.asRead, key]
              · simp [namedOf, CloneSetting.isOf, same]

theorem names_namedOf (settings : List CloneSetting) (name : Text)
    : name ∈ (namedOf settings).map Prod.fst ↔ ∃ setting ∈ settings, setting.isOf name = true := by
  constructor
  · intro member
    obtain ⟨named, listed, rfl⟩ := List.mem_map.mp member
    obtain ⟨setting, held, ofRemote, _⟩ := mem_namedOf listed
    exact ⟨setting, held, ofRemote⟩
  · rintro ⟨setting, held, ofRemote⟩
    obtain ⟨remote, same⟩ := Bool.and_eq_true_iff.mp ofRemote
    refine List.mem_map.mpr ⟨(name, setting.var, setting.meaning), ?_, rfl⟩
    refine List.mem_filterMap.mpr ⟨setting, held, ?_⟩
    rw [remote, of_decide_eq_true same]

theorem localAdded_iff (settings : List CloneSetting)
    : (!(grouped (namedOf settings)).any (·.1 = localRemote)) = true
      ↔ ∀ setting ∈ settings, setting.isOf localRemote = false := by
  have named
      : (grouped (namedOf settings)).any (·.1 = localRemote) = true
        ↔ ∃ setting ∈ settings, setting.isOf localRemote = true := by
    rw [← names_namedOf, ← names_grouped]
    simp
  rw [Bool.not_eq_true', ← Bool.not_eq_true, named]
  simp

theorem localSettings_valid {clone : Text} (noNul : nul ∉ clone)
    : RemoteValid (localRemote, localSettings clone) := by
  have url : IsVariable "url".toList :=
    ⟨117, [114, 108], by decide, by decide, by decide⟩
  have fetch : IsVariable "fetch".toList :=
    ⟨102, [101, 116, 99, 104], by decide, by decide, by decide⟩
  have line : '\n' ∉ localRemote ∧ nul ∉ localRemote := by decide
  refine ⟨line.1, line.2, fun setting member => ?_⟩
  rcases List.mem_pair.mp member with rfl | rfl
  · exact ⟨url, noNul⟩
  · exact ⟨fetch, by decide⟩

-- Reading back

/-- What is read has each remote of the clone with its settings in their order, the clone itself as
one more unless it has a remote of that name, the settings without a subsection, and nothing else.
-/
structure ReadsBack (clone : Text) (settings : List CloneSetting) (read : List Config.Setting)
    : Prop where
  remotes
    : ∀ name,
      read.filter (keyStem ·.key = remoteStem name)
      = (settings.filter (·.isOf name)).map CloneSetting.asRead
        ++ if name = localRemote ∧ ∀ setting ∈ settings, setting.isOf localRemote = false then
            (localSettings clone).map (readNamed localRemote)
          else []
  bare
    : read.filter (isBareKey ·.key)
      = (settings.filter (·.subsection = none)).map CloneSetting.asRead
  only
    : ∀ setting ∈ read,
      isBareKey setting.key = true ∨ ∃ name, keyStem setting.key = remoteStem name

/-- What is appended for a branch without a section is read, alone and behind what stands between
settings, as its remote and its merge.
-/
structure AppendsUpstream (branch : Text) (upstream : Upstream) : Prop where
  appended
    : ∀ config,
      addUpstream config branch upstream
      = if hasHeader config branch then config
        else Config.ended config ++ Text.utf8 (branchSection branch upstream)
  alone
    : Config.read (Text.utf8 (branchSection branch upstream))
      = some
          [⟨branchStem branch ++ remoteName, some upstream.remote.utf8⟩,
            ⟨branchStem branch ++ mergeName, some upstream.merge.utf8⟩]
  behind
    : ∀ config settings,
      Config.read config = some settings
      → Config.endsBetween config = true
      → hasHeader config branch = false
      → Config.read (addUpstream config branch upstream)
        = some
            (settings
              ++ [⟨branchStem branch ++ remoteName, some upstream.remote.utf8⟩,
                ⟨branchStem branch ++ mergeName, some upstream.merge.utf8⟩])

/-- The sections of what is parsed are read as the clone's settings. -/
theorem parse_reads_back {clone : Text} (noNul : nul ∉ clone)
    (valid : ∀ setting ∈ settings, setting.Valid)
    : ∃ read,
        Config.read (Text.utf8 (parse clone (printed settings)).configSections) = some read
        ∧ ReadsBack clone settings read := by
  obtain ⟨remotes, sectionless⟩ := foldl_parseEntry valid
  have parsedBare : (parse clone (printed settings)).sectionless = sectionlessOf settings := by
    rw [parse, entries_printed valid]
    exact sectionless
  have parsedRemotes
      : (parse clone (printed settings)).remotes
        = grouped (namedOf settings)
          ++ if ∀ setting ∈ settings, setting.isOf localRemote = false then
              [(localRemote, localSettings clone)]
            else [] := by
    rw [parse, entries_printed valid]
    dsimp only
    rw [remotes]
    by_cases added : ∀ setting ∈ settings, setting.isOf localRemote = false
    · rw [if_pos ((localAdded_iff settings).mpr added), if_pos added]
    · rw [if_neg fun present => added ((localAdded_iff settings).mp present), if_neg added,
        List.append_nil]
  have bareValid := sectionlessOf_valid valid
  have remoteValid : ∀ remote ∈ (parse clone (printed settings)).remotes, RemoteValid remote := by
    rw [parsedRemotes]
    refine List.forall_mem_append.mpr ⟨grouped_valid valid, ?_⟩
    split
    · exact List.forall_mem_singleton.mpr (localSettings_valid noNul)
    · exact fun remote member => (List.not_mem_nil member).elim
  refine ⟨_, read_configSections (parsedBare ▸ bareValid) remoteValid, ?_, ?_, ?_⟩
  · intro name
    rw [filter_remote (parsedBare ▸ bareValid) remoteValid, parsedRemotes]
    have split
        : settingsOf name
            (grouped (namedOf settings)
              ++ if ∀ setting ∈ settings, setting.isOf localRemote = false then
                  [(localRemote, localSettings clone)]
                else [])
          = settingsOf name (grouped (namedOf settings))
            ++ if name = localRemote
                ∧ ∀ setting ∈ settings, setting.isOf localRemote = false then
                localSettings clone
              else [] := by
      unfold settingsOf
      rw [List.filter_append, List.flatMap_append]
      by_cases added : ∀ setting ∈ settings, setting.isOf localRemote = false
      · by_cases own : localRemote = name
        · rw [if_pos added, if_pos ⟨own.symm, added⟩]
          simp [own]
        · rw [if_pos added, if_neg fun both => own both.1.symm]
          simp [own]
      · rw [if_neg added, if_neg fun both => added both.2]
        rfl
    rw [split, List.map_append, (settingsOf_grouped _).2, map_namedOf]
    refine congrArg (_ ++ ·) ?_
    split
    case isTrue both => rw [both.1]
    case isFalse => rfl
  · rw [filter_bare (parsedBare ▸ bareValid) remoteValid, parsedBare, map_sectionlessOf]
  · exact fun setting member => bare_or_remote (parsedBare ▸ bareValid) remoteValid member

/-- An upstream that is added is read back. -/
theorem appendsUpstream {branch : Text} (noFeed : '\n' ∉ branch) (noNul : nul ∉ branch)
    {upstream : Upstream} (remote : nul ∉ upstream.remote) (merge : nul ∉ upstream.merge)
    : AppendsUpstream branch upstream := by
  have settings
      : branchSettings branch upstream
        = [⟨branchStem branch ++ remoteName, some upstream.remote.utf8⟩,
          ⟨branchStem branch ++ mergeName, some upstream.merge.utf8⟩] := by
    rw [branchSettings, cString_of_no_nul (utf8_clean remote),
      cString_of_no_nul (utf8_clean merge)]
  have bracket : (Text.utf8 (branchSection branch upstream)).head? = some 91 := by
    rw [utf8_branchSection]
    rfl
  have behind (config : Bytes) (before : List Config.Setting)
      (accepted : Config.read config = some before)
      (between : Config.endsBetween config = true)
      : Config.read (Config.ended config ++ Text.utf8 (branchSection branch upstream))
        = some (before ++ branchSettings branch upstream) :=
    Config.read_append accepted between (by rw [bracket]; decide) (by rw [bracket]; decide)
      fun reader idle => run_branchSection idle noFeed noNul upstream
  rw [settings] at behind
  refine ⟨fun config => ?_, behind [] [] rfl rfl, fun config before accepted between none_ => ?_⟩
  · rw [addUpstream, ended_eq]
  · rw [addUpstream, none_, ended_eq]
    exact behind config before accepted between

/-- What a workspace copies of its clone reads back: the remotes and the settings without a
subsection, any upstream that is added, and no two refs that it carries under one name.
-/
theorem copied_remotes_read_back (clone : Text) (noNul : nul ∉ clone)
    (settings : List CloneSetting) (valid : ∀ setting ∈ settings, setting.Valid)
    : (∃ read,
        Config.read (Text.utf8 (parse clone (printed settings)).configSections) = some read
        ∧ ReadsBack clone settings read)
      ∧ (∀ branch upstream,
        '\n' ∉ branch
        → nul ∉ branch
        → nul ∉ upstream.remote
        → nul ∉ upstream.merge
        → AppendsUpstream branch upstream)
      ∧ ∀ left right ref,
        (parse clone (printed settings)).workspaceRef left = some ref
        → (parse clone (printed settings)).workspaceRef right = some ref
        → left = right := by
  refine ⟨parse_reads_back noNul valid, fun branch upstream noFeed noNul remote merge => ?_,
    fun left right ref first second => ?_⟩
  · exact appendsUpstream noFeed noNul remote merge
  · let seed : Seed :=
      ⟨⟨none, none, none⟩, some (parse clone (printed settings)).toCloneRemotes, false⟩
    exact @mapped_injective seed left right ref first second

/-- A remote whose name has a dot and a quote, with a value that has a carriage return inside and a
comment character.
-/
def forkUrl : CloneSetting :=
  ⟨true, some "my.\"fork\"".toList, "url".toList, some "a\rb;c ".toList⟩

/-- A key alone. -/
def pushDefault : CloneSetting :=
  ⟨false, none, "autosetuprebase".toList, none⟩

theorem copied_remotes_read_back_sample
    : (∃ read,
        Config.read (Text.utf8 (parse "/w".toList (printed [forkUrl, pushDefault])).configSections)
          = some read
        ∧ ReadsBack "/w".toList [forkUrl, pushDefault] read)
      ∧ AppendsUpstream "main".toList ⟨forkUrl.subsection.getD [], "refs/heads/main".toList⟩
      ∧ (parse "/w".toList (printed [forkUrl, pushDefault])).workspaceRef
          "refs/heads/main".toList
        = some "refs/remotes/local/main".toList := by
  have url : forkUrl.Valid :=
    { subsection := by decide
      var := ⟨117, [114, 108], by decide, by decide, by decide⟩
      value := by decide }
  have key : pushDefault.Valid :=
    { subsection := by decide
      var :=
        ⟨97, [117, 116, 111, 115, 101, 116, 117, 112, 114, 101, 98, 97, 115, 101],
          by decide, by decide, by decide⟩
      value := by decide }
  have valid : ∀ setting ∈ [forkUrl, pushDefault], setting.Valid := by
    simp [url, key]
  obtain ⟨reads, appends, -⟩ :=
    copied_remotes_read_back "/w".toList (by decide) [forkUrl, pushDefault] valid
  exact ⟨reads, appends _ _ (by decide) (by decide) (by decide) (by decide), by decide⟩

end Gfs.Mount.Remotes
