import Gfs.Git.Config
import Gfs.Git.PackedRefs
import Gfs.Lib.Runs
import Gfs.Service.Ingest

/-! Seeding the files of a workspace's `.git` that are shared with Git and the user
(`gfs-mount/src/gitdir.rs`): the user's configuration, which gfs's own is included in, and the
packed refs. A seed keeps what it recognises in them by its text.
-/

namespace Gfs.Mount.Seeding

open Gfs.Types
open Gfs.Git
open Gfs.Git.PackedRefs (Record)

-- What is seeded

/-- A ref as the repository shows it. -/
structure RefTarget where
  name : Text
  target : ObjectId
  peeled : Option ObjectId
  deriving DecidableEq, Repr

/-- A branch's upstream; `merge` is the full ref name on the remote. -/
structure Upstream where
  remote : Text
  merge : Text
  deriving DecidableEq, Repr

/-- What a local-mode workspace copies of its clone: the branches with both settings, and whether
the clone itself has been added as the remote `local`.
-/
structure CloneRemotes where
  upstreams : List (Text × Upstream)
  localAdded : Bool
  deriving DecidableEq, Repr

/-- The facts of a pinned commit that the two files are written from. -/
structure GitDirFacts where
  refName : Option Text
  refs : Option (List RefTarget)
  workRefRoot : Option Text
  deriving DecidableEq, Repr

/-- One seed of a workspace. -/
structure Seed where
  facts : GitDirFacts
  cloneRemotes : Option CloneRemotes
  trackUpstream : Bool
  deriving DecidableEq, Repr

/-- The two files, where they exist. -/
structure Files where
  config : Option Bytes
  packedRefs : Option Bytes
  deriving DecidableEq, Repr

/-- `std::fs::read_to_string`; a Rust string is kept as its bytes. -/
def readToString (file : Option Bytes) : Option Bytes :=
  file.filter fun bytes => (Text.fromUtf8 bytes).isSome

-- The user's configuration

/-- `str::replace` of one character. -/
def replace (c : Char) (written text : Text) : Text :=
  text.flatMap fun d => if d = c then written else [d]

/-- A config subsection name, quoted the way Git reads it back. -/
def escapeSubsection (name : Text) : Text :=
  replace '"' ['\\', '"'] (replace '\\' ['\\', '\\'] name)

/-- A config value as Git writes one. -/
def configValue (value : Text) : Text :=
  if (!value.any (['"', '\\', '#', ';', '\n', '\t'].contains ·)) ∧ trim value = value then
    value
  else
    let escaped :=
      replace '\t' ['\\', 't']
        (replace '\n' ['\\', 'n'] (replace '"' ['\\', '"'] (replace '\\' ['\\', '\\'] value)))
    ['"'] ++ escaped ++ ['"']

/-- A line as `str::lines` gives it, which ends with a line feed in the text. -/
def stripReturn (line : Bytes) : Bytes :=
  if line.getLast? = some 13 then line.dropLast else line

/-- `str::lines`, behind what has been read of a line. -/
def linesFrom (seen : Bytes) : Bytes → List Bytes
  | [] => if seen = [] then [] else [seen]
  | b :: rest =>
      if b = 10 then stripReturn seen :: linesFrom [] rest else linesFrom (seen ++ [b]) rest

/-- `str::lines`. -/
def lines (text : Bytes) : List Bytes :=
  linesFrom [] text

/-- The header of a branch's section. -/
def branchHeader (branch : Text) : Text :=
  "[branch \"".toList ++ escapeSubsection branch ++ "\"]".toList

/-- Whether a line is the header of a branch's section, spaces around it apart. -/
def hasHeader (config : Bytes) (branch : Text) : Bool :=
  (lines config).any fun line =>
    (Text.fromUtf8 line).any fun line => trim line = branchHeader branch

/-- The section of a branch that tracks an upstream. -/
def branchSection (branch : Text) (upstream : Upstream) : Text :=
  branchHeader branch ++ "\n\tremote = ".toList ++ configValue upstream.remote
    ++ "\n\tmerge = ".toList ++ configValue upstream.merge ++ "\n".toList

/-- `branch.<branch>.remote` and `.merge`, unless the branch already has a section. -/
def addUpstream (config : Bytes) (branch : Text) (upstream : Upstream) : Bytes :=
  if hasHeader config branch then config
  else
    (if config ≠ [] ∧ config.getLast? ≠ some 10 then config ++ [10] else config)
      ++ Text.utf8 (branchSection branch upstream)

/-- The line that makes a configuration a workspace's. -/
def gfsConfigInclude : Bytes :=
  Text.utf8 "[include]\n\tpath = gfs/config\n".toList

/-- The configuration of a new workspace. -/
def newConfig : Bytes :=
  Text.utf8 "[core]\n\trepositoryformatversion = 0\n\tbare = false\n".toList ++ gfsConfigInclude

/-- The clone's upstream for a branch, if it has one. -/
def CloneRemotes.upstream (remotes : CloneRemotes) (branch : Text) : Option Upstream :=
  (remotes.upstreams.find? (·.1 = branch)).map Prod.snd

/-- The branch that is pinned, where its upstream is asked for. -/
def Seed.branch (seed : Seed) : Option Text :=
  (seed.facts.refName.bind ("refs/heads/".toList.isPrefixOf? ·)).filter
    fun _ => seed.trackUpstream

/-- The upstream of a pinned branch: the clone's, or the gateway's branch of the same name. -/
def Seed.upstream (seed : Seed) (branch : Text) : Option Upstream :=
  match seed.cloneRemotes with
  | some remotes => remotes.upstream branch
  | none =>
      let upstreamHasIt :=
        seed.facts.refs.all fun refs =>
          refs.any fun ref => "refs/heads/".toList.isPrefixOf? ref.name = some branch
      if seed.facts.workRefRoot.isSome && upstreamHasIt then
        some ⟨"origin".toList, "refs/heads/".toList ++ branch⟩
      else none

/-- The pinned branch and its upstream, where there are both. -/
def Seed.tracked (seed : Seed) : Option (Text × Upstream) :=
  seed.branch.bind fun branch => (seed.upstream branch).map (branch, ·)

/-- The file that a seed goes on from: what it reads, if that includes gfs's own configuration. -/
def carried (file : Option Bytes) : Bytes :=
  match readToString file with
  | some text => if gfsConfigInclude <:+: text then text else newConfig
  | none => newConfig

/-- The configuration after a seed. -/
def writeUserConfig (file : Option Bytes) (seed : Seed) : Bytes :=
  match seed.tracked with
  | some (branch, upstream) => addUpstream (carried file) branch upstream
  | none => carried file

-- The packed refs

/-- What the clone's ref is called in the workspace. -/
def CloneRemotes.workspaceRef (remotes : CloneRemotes) (name : Text) : Option Text :=
  if "refs/tags/".toList <+: name then some name
  else
    match "refs/heads/".toList.isPrefixOf? name with
    | some branch =>
        if remotes.localAdded then some ("refs/remotes/local/".toList ++ branch) else none
    | none =>
        if "refs/remotes/".toList <+: name then
          -- A ref under the added `local` would collide with the clone's branches.
          let shadowed := remotes.localAdded && "refs/remotes/local/".toList.isPrefixOf name
          if !("/HEAD".toList.isSuffixOf name) && !shadowed then some name else none
        else none

/-- What a pinned ref is called in the workspace, if it goes there. -/
def Seed.mapped (seed : Seed) (name : Text) : Option Text :=
  match seed.cloneRemotes with
  | some remotes => remotes.workspaceRef name
  | none =>
      match "refs/tags/".toList.isPrefixOf? name with
      | some tag => some ("refs/tags/".toList ++ tag)
      | none =>
          match "refs/heads/".toList.isPrefixOf? name with
          | some branch => some ("refs/remotes/origin/".toList ++ branch)
          | none => none

/-- The record of a pinned ref. -/
def Seed.pinned (seed : Seed) (ref : RefTarget) : Option Record :=
  (seed.mapped ref.name).map fun name =>
    ⟨name.utf8, (toHex ref.target.raw).utf8, ref.peeled.map fun peeled => (toHex peeled.raw).utf8⟩

/-- `str::split_once` at a space. -/
def splitOnce (line : Bytes) : Option (Bytes × Bytes) :=
  match line.dropWhile (· ≠ 32) with
  | _ :: rest => some (line.takeWhile (· ≠ 32), rest)
  | [] => none

/-- A line of the previous file: the agent's own branches are kept, and the peeled id behind the one
that was kept last.
-/
def keepLine : List Record × Option Nat → Bytes → List Record × Option Nat
  | (records, some index), 94 :: peeled =>
      (records.modify index fun record => { record with peeled := some peeled }, some index)
  | (records, none), 94 :: _ => (records, none)
  | (records, _), line =>
      match splitOnce line with
      | some (target, name) =>
          if PackedRefs.headsPrefix.isPrefixOf name then
            (records ++ [⟨name, target, none⟩], some records.length)
          else (records, none)
      | none => (records, none)

/-- The order of Rust's triples of a name, a target and a peeled id. -/
def order : Record → Record → Ordering :=
  compareLex (compareOn Record.name)
    (compareLex (compareOn Record.target) (compareOn Record.peeled))

/-- A line for each record, and one behind it for what it peels to. -/
def writeRecord (record : Record) : Bytes :=
  record.target ++ [32] ++ record.name ++ [10]
    ++ match record.peeled with
      | some peeled => [94] ++ peeled ++ [10]
      | none => []

/-- `# pack-refs with: peeled fully-peeled sorted ` and a line feed -/
def packedHeader : Bytes :=
  Text.utf8 "# pack-refs with: peeled fully-peeled sorted \n".toList

/-- The packed refs after a seed that has the repository's refs. -/
def writePackedRefs (file : Option Bytes) (seed : Seed) (refs : List RefTarget) : Bytes :=
  let records := refs.filterMap seed.pinned
  let records :=
    match readToString file with
    | some previous => ((lines previous).foldl keepLine (records, none)).1
    | none => records
  packedHeader
    ++ (records.insertionSort fun left right => (order left right).isLE).flatMap writeRecord

/-- The files after a seed. Without the repository's refs the packed ones are left alone. -/
def Files.seeded (files : Files) (seed : Seed) : Files where
  config := some (writeUserConfig files.config seed)
  packedRefs :=
    match seed.facts.refs with
    | some refs => some (writePackedRefs files.packedRefs seed refs)
    | none => files.packedRefs

-- Texts and their bytes

variable {text branch : Text} {file : Option Bytes} {line : Bytes}

theorem exists_char_of_mem_utf8 {b : UInt8} (member : b ∈ text.utf8) (small : b.toNat < 128)
    : ∃ c ∈ text, c.toNat = b.toNat := by
  obtain ⟨c, listed, inside⟩ := List.mem_flatMap.mp member
  exact ⟨c, listed, Text.toNat_of_mem_utf8 (by simpa [Text.utf8] using inside) small⟩

theorem notMem_utf8 {c : Char} (ascii : c.toNat < 128) (missing : c ∉ text)
    : c.toNat.toUInt8 ∉ text.utf8 := by
  intro member
  have small : c.toNat.toUInt8.toNat = c.toNat := by
    rw [UInt8.toNat_ofNat']
    omega
  obtain ⟨d, listed, same⟩ := exists_char_of_mem_utf8 member (by omega)
  rw [small] at same
  exact missing (Char.toNat_inj.mp same ▸ listed)

/-- Replacing an ASCII character is replacing its byte. -/
theorem utf8_replace {c : Char} (ascii : c.toNat < 128) (written text : Text)
    : Text.utf8 (replace c written text)
      = text.utf8.flatMap fun b => if b = c.toNat.toUInt8 then written.utf8 else [b] := by
  induction text with
  | nil => rfl
  | cons d text ih =>
      have split : Text.utf8 (d :: text) = Text.utf8 [d] ++ Text.utf8 text :=
        Text.utf8_append [d] text
      have here
          : Text.utf8 (if d = c then written else [d])
            = (Text.utf8 [d]).flatMap fun b =>
                if b = c.toNat.toUInt8 then written.utf8 else [b] := by
        by_cases same : d = c
        · subst same
          rw [if_pos rfl, Text.utf8_char ascii, List.flatMap_singleton, if_pos rfl]
        · have others : ∀ b ∈ Text.utf8 [d], b ≠ c.toNat.toUInt8 := by
            rintro b member rfl
            exact notMem_utf8 ascii (by simpa [eq_comm] using same) member
          rw [if_neg same]
          conv_lhs => rw [← List.flatMap_singleton' (Text.utf8 [d])]
          exact List.flatMap_congr fun b member => (if_neg (others b member)).symm
      rw [split, List.flatMap_append, ← ih, ← here, ← Text.utf8_append]
      rfl

theorem utf8_escapeSubsection (name : Text)
    : Text.utf8 (escapeSubsection name) = name.utf8.flatMap Config.escapeName := by
  rw [escapeSubsection, utf8_replace (by decide), utf8_replace (by decide), List.flatMap_assoc]
  refine List.flatMap_congr fun b _ => ?_
  by_cases backslash : b = '\\'.toNat.toUInt8
  · subst backslash
    decide +kernel
  · by_cases quote : b = '"'.toNat.toUInt8
    · subst quote
      decide +kernel
    · have itself : Config.escapeName b = [b] := if_neg (not_or.mpr ⟨backslash, quote⟩)
      rw [itself, if_neg backslash, List.flatMap_singleton, if_neg quote]

theorem utf8_escaped (value : Text)
    : Text.utf8 (replace '\t' ['\\', 't']
        (replace '\n' ['\\', 'n'] (replace '"' ['\\', '"'] (replace '\\' ['\\', '\\'] value))))
      = value.utf8.flatMap Config.escapeValue := by
  rw [utf8_replace (by decide), utf8_replace (by decide), utf8_replace (by decide),
    utf8_replace (by decide), List.flatMap_assoc, List.flatMap_assoc, List.flatMap_assoc]
  refine List.flatMap_congr fun b _ => ?_
  by_cases special
      : b = '\\'.toNat.toUInt8 ∨ b = '"'.toNat.toUInt8 ∨ b = '\n'.toNat.toUInt8
        ∨ b = '\t'.toNat.toUInt8
  · rcases special with rfl | rfl | rfl | rfl <;> decide +kernel
  · simp only [not_or] at special
    obtain ⟨backslash, quote, feed, tab⟩ := special
    have itself : Config.escapeValue b = [b] := by
      rw [Config.escapeValue, if_neg (not_or.mpr ⟨backslash, quote⟩ : ¬(b = 92 ∨ b = 34)),
        if_neg (show ¬b = 10 from feed), if_neg (show ¬b = 9 from tab)]
    rw [itself, if_neg backslash, List.flatMap_singleton, if_neg quote, List.flatMap_singleton,
      if_neg feed, List.flatMap_singleton, if_neg tab]

/-- A text that trimming leaves as it is has no space at its ends. -/
theorem ends_of_trim (same : trim text = text)
    : (∀ c ∈ text.head?, isWhitespace c = false) ∧ ∀ c ∈ text.getLast?, isWhitespace c = false := by
  constructor
  · intro c first
    obtain ⟨tail, rfl⟩ := List.head?_eq_some_iff.mp first
    have front : c :: tail <+: (c :: tail).dropWhile isWhitespace := by
      conv_lhs => rw [← same]
      exact List.rdropWhile_prefix ..
    have stops := List.head?_dropWhile_not isWhitespace (c :: tail)
    obtain ⟨rest, split⟩ := front
    rw [← split] at stops
    simpa using stops
  · intro c last
    have some_ : trim text ≠ [] := by
      rw [same]
      rintro rfl
      cases last
    have stops := List.rdropWhile_last_not isWhitespace (text.dropWhile isWhitespace) some_
    have final : (trim text).getLast some_ = c := by
      have found : (trim text).getLast? = some c := by
        rw [same]
        exact last
      rw [List.getLast?_eq_some_getLast some_] at found
      exact Option.some.inj found
    exact Bool.eq_false_iff.mpr (final ▸ stops)

/-- Git reads a value back from what is written for it. -/
theorem writes_configValue (value : Text)
    : Config.WritesValue (Text.utf8 (configValue value)) value.utf8 := by
  rw [configValue]
  split
  case isFalse =>
    rw [Text.utf8_append, Text.utf8_append, utf8_escaped]
    exact Config.writesValue_quoted value.utf8
  case isTrue plain =>
    obtain ⟨bare, trimmed⟩ := plain
    obtain ⟨first, last⟩ := ends_of_trim trimmed
    have space {b : UInt8} {c : Char} (inside : b ∈ Text.utf8 [c]) (other : isWhitespace c = false)
        : Config.isSpace b = false := by
      by_contra spaced
      simp only [Config.isSpace, Bool.not_eq_false, Bool.or_eq_true, decide_eq_true_eq] at spaced
      have small : b.toNat < 128 := by
        rcases spaced with ((rfl | rfl) | rfl) | rfl <;> decide
      have same := Text.toNat_of_mem_utf8 inside small
      rw [isWhitespace, same] at other
      rcases spaced with ((rfl | rfl) | rfl) | rfl <;> exact absurd other (by decide)
    refine Config.writesValue_bare (fun b member special => ?_) ?_ ?_
    · simp only [List.mem_cons, List.not_mem_nil, or_false] at special
      have small : b.toNat < 128 := by
        rcases special with rfl | rfl | rfl | rfl | rfl <;> decide
      have hit : ['"', '\\', '#', ';', '\n', '\t'].contains (Char.ofNat b.toNat) = true := by
        rcases special with rfl | rfl | rfl | rfl | rfl <;> decide
      obtain ⟨c, listed, same⟩ := exists_char_of_mem_utf8 member small
      rw [← same, Char.ofNat_toNat] at hit
      rw [List.any_eq_true.mpr ⟨c, listed, hit⟩] at bare
      cases bare
    · cases found : value.utf8.head? with
      | none => rfl
      | some b =>
          obtain ⟨c, head, inside⟩ := Text.exists_head_of_utf8 found
          exact decide_eq_true (space inside (first c head))
    · cases found : value.utf8.getLast? with
      | none => rfl
      | some b =>
          obtain ⟨c, final, inside⟩ := Text.exists_last_of_utf8 found
          exact decide_eq_true (space inside (last c final))

-- A branch's section

/-- `branch` -/
def branchName : Bytes :=
  [98, 114, 97, 110, 99, 104]

/-- `remote` -/
def remoteName : Bytes :=
  [114, 101, 109, 111, 116, 101]

/-- `merge` -/
def mergeName : Bytes :=
  [109, 101, 114, 103, 101]

/-- The front of a branch's keys. -/
def branchStem (branch : Text) : Bytes :=
  branchName ++ [46] ++ branch.utf8 ++ [46]

/-- Whether a key is a branch's: its subsection is the branch. -/
def isBranchKey (branch : Text) (key : Bytes) : Bool :=
  ((branchStem branch).isPrefixOf? key).any fun variable_ => !variable_.contains 46

/-- What Git reads of a branch's section. -/
def branchSettings (branch : Text) (upstream : Upstream) : List Config.Setting :=
  [⟨branchStem branch ++ remoteName, some (Config.cString upstream.remote.utf8)⟩,
    ⟨branchStem branch ++ mergeName, some (Config.cString upstream.merge.utf8)⟩]

theorem isBranchKey_iff {key : Bytes}
    : isBranchKey branch key = true
      ↔ ∃ variable_, key = branchStem branch ++ variable_ ∧ 46 ∉ variable_ := by
  rw [isBranchKey, Option.any_eq_true]
  refine exists_congr fun variable_ => and_congr ?_ ?_
  · rw [List.isPrefixOf?_eq_some_iff_append_eq, eq_comm]
  · simp

theorem cString_of_no_nul {buffer : Bytes} (clean : 0 ∉ buffer)
    : Config.cString buffer = buffer := by
  rw [Config.cString, List.takeWhile_eq_self_iff]
  exact fun b member => decide_eq_true fun same => clean (same ▸ member)

/-- A setting's line, without its end. -/
def settingLine (name written : Bytes) : Bytes :=
  [9] ++ name ++ [32, 61, 32] ++ written

/-- A header's line, without its end. -/
def headerLine (branch : Text) : Bytes :=
  [91] ++ branchName ++ [32, 34] ++ branch.utf8.flatMap Config.escapeName ++ [34, 93]

theorem utf8_branchHeader (branch : Text)
    : Text.utf8 (branchHeader branch) = headerLine branch := by
  have opened : Text.utf8 "[branch \"".toList = [91] ++ branchName ++ [32, 34] := by decide +kernel
  have closed : Text.utf8 "\"]".toList = [34, 93] := by decide +kernel
  unfold branchHeader headerLine
  rw [Text.utf8_append, Text.utf8_append, utf8_escapeSubsection, opened, closed]

theorem utf8_branchSection (branch : Text) (upstream : Upstream)
    : Text.utf8 (branchSection branch upstream)
      = headerLine branch
        ++ 10 :: (settingLine remoteName (Text.utf8 (configValue upstream.remote))
          ++ 10 :: (settingLine mergeName (Text.utf8 (configValue upstream.merge)) ++ [10])) := by
  have remote : Text.utf8 "\n\tremote = ".toList = [10, 9] ++ remoteName ++ [32, 61, 32] := by
    decide +kernel
  have merge : Text.utf8 "\n\tmerge = ".toList = [10, 9] ++ mergeName ++ [32, 61, 32] := by
    decide +kernel
  have feed : Text.utf8 "\n".toList = [10] := by decide +kernel
  unfold branchSection settingLine
  rw [Text.utf8_append, Text.utf8_append, Text.utf8_append, Text.utf8_append, Text.utf8_append,
    utf8_branchHeader, remote, merge, feed]
  simp only [List.append_assoc, List.cons_append, List.nil_append]

theorem settingLine_clean {name : Bytes} (plain : 10 ∉ name) {written value : Bytes}
    (writes : Config.WritesValue written value)
    : 10 ∉ settingLine name written ∧ (settingLine name written).getLast? ≠ some 13 := by
  constructor
  · simp [settingLine, plain, writes.clean]
  · have last := writes.last
    cases written using List.reverseRecOn with
    | nil =>
        have ends : settingLine name [] = [9] ++ name ++ [32, 61] ++ [32] := by simp [settingLine]
        rw [ends, List.getLast?_concat]
        decide
    | append_singleton front b =>
        rw [List.getLast?_concat] at last
        rw [settingLine, ← List.append_assoc, List.getLast?_concat]
        exact last

/-- Between two settings, Git reads a branch's section as its two settings. -/
theorem run_branchSection {reader : Config.Reader} (idle : reader.mode = .idle)
    (noFeed : '\n' ∉ branch) (noNul : Char.ofNat 0 ∉ branch) (upstream : Upstream)
    : ∃ after,
        reader.run (Config.joined (Text.utf8 (branchSection branch upstream))) = some after
        ∧ after.mode = .idle
        ∧ after.settings = reader.settings ++ branchSettings branch upstream := by
  have remote := writes_configValue upstream.remote
  have merge := writes_configValue upstream.merge
  have clean : 10 ∉ branch.utf8 := notMem_utf8 (c := '\n') (by decide) noFeed
  have noZero : 0 ∉ branch.utf8 := notMem_utf8 (c := Char.ofNat 0) (by decide) noNul
  have escaped : 10 ∉ branch.utf8.flatMap Config.escapeName := Config.escapeName_clean clean
  have header : 10 ∉ headerLine branch ∧ (headerLine branch).getLast? ≠ some 13 := by
    refine ⟨by simp [headerLine, branchName, escaped], ?_⟩
    rw [headerLine, List.getLast?_append_of_ne_nil _ (by simp)]
    decide
  have joinedAll
      : Config.joined (Text.utf8 (branchSection branch upstream))
        = Text.utf8 (branchSection branch upstream) := by
    have plainRemote : (10 : UInt8) ∉ remoteName := by decide
    have plainMerge : (10 : UInt8) ∉ mergeName := by decide
    obtain ⟨first, firstEnd⟩ := settingLine_clean plainRemote remote
    obtain ⟨second, secondEnd⟩ := settingLine_clean plainMerge merge
    rw [utf8_branchSection, Config.joined_line header.1 header.2,
      Config.joined_line first firstEnd, Config.joined_line second secondEnd]
    rfl
  let inside := reader.enter (branchName ++ [46] ++ branch.utf8)
  have entered : reader.run (headerLine branch) = some inside :=
    Config.Reader.run_header idle (by decide) clean
  have set (start : Config.Reader) (between : start.mode = .idle) {name : Bytes}
      (known : name = remoteName ∨ name = mergeName) {written value : Bytes}
      (writes : Config.WritesValue written value)
      : start.run (settingLine name written ++ [10])
        = some (start.emit (start.stem ++ name) (some value)) := by
    rcases known with rfl | rfl <;>
      exact Config.Reader.run_setting between (by decide) (by decide) writes
  let first := inside.emit (inside.stem ++ remoteName) (some upstream.remote.utf8)
  refine ⟨first.emit (first.stem ++ mergeName) (some upstream.merge.utf8), ?_, rfl, ?_⟩
  · have feed : inside.step 10 = some inside := Config.Reader.step_idle_newline rfl
    have split
        : Text.utf8 (branchSection branch upstream)
          = headerLine branch
            ++ ([10]
              ++ (settingLine remoteName (Text.utf8 (configValue upstream.remote)) ++ [10]
                ++ (settingLine mergeName (Text.utf8 (configValue upstream.merge)) ++ [10]))) := by
      rw [utf8_branchSection]
      simp
    rw [joinedAll, split, Config.Reader.run_append, entered, Option.bind_some,
      Config.Reader.run_append, Config.Reader.run_cons, feed, Option.bind_some,
      Config.Reader.run_nil, Option.bind_some, Config.Reader.run_append,
      set inside rfl (.inl rfl) remote, Option.bind_some, set first rfl (.inr rfl) merge]
  · have stemClean : 0 ∉ branchStem branch := by
      simp [branchStem, branchName, noZero]
    have remoteKey
        : Config.cString (branchStem branch ++ remoteName) = branchStem branch ++ remoteName :=
      cString_of_no_nul (by simp [stemClean, remoteName])
    have mergeKey
        : Config.cString (branchStem branch ++ mergeName) = branchStem branch ++ mergeName :=
      cString_of_no_nul (by simp [stemClean, mergeName])
    have whole
        : (first.emit (first.stem ++ mergeName) (some upstream.merge.utf8)).settings
          = reader.settings
            ++ [⟨Config.cString (branchStem branch ++ remoteName),
                some (Config.cString upstream.remote.utf8)⟩]
            ++ [⟨Config.cString (branchStem branch ++ mergeName),
                some (Config.cString upstream.merge.utf8)⟩] :=
      rfl
    rw [whole, remoteKey, mergeKey, List.append_assoc]
    rfl

-- The user's settings

/-- The settings of a configuration; a file that is not there has none. -/
def settingsOf (file : Option Bytes) : Option (List Config.Setting) :=
  Config.read (file.getD [])

/-- What Git reads of a new workspace's configuration. -/
def newSettings : List Config.Setting :=
  [⟨Text.utf8 "core.repositoryformatversion".toList, some [48]⟩,
    ⟨Text.utf8 "core.bare".toList, some (Text.utf8 "false".toList)⟩,
    ⟨Text.utf8 "include.path".toList, some (Text.utf8 "gfs/config".toList)⟩]

/-- What becomes of a user's settings: all keep the value that counts, a branch that has some gets
no others, and what is added is a new workspace's or an upstream's.
-/
structure Keeps (before after : List Config.Setting) : Prop where
  effective (key : Bytes) (value : Option Bytes)
    : Config.effective before key = some value → Config.effective after key = some value
  branches (branch : Text)
    : (∃ setting ∈ before, isBranchKey branch setting.key = true)
      → after.filter (isBranchKey branch ·.key) = before.filter (isBranchKey branch ·.key)
  added
    : ∀ setting ∈ after,
      setting ∈ before
      ∨ setting ∈ newSettings
      ∨ ∃ branch,
        setting.key = branchStem branch ++ remoteName ∨ setting.key = branchStem branch ++ mergeName

theorem Keeps.refl (settings : List Config.Setting) : Keeps settings settings :=
  ⟨fun _ _ => id, fun _ _ => rfl, fun _ => .inl⟩

theorem Keeps.trans {before between after : List Config.Setting} (first : Keeps before between)
    (second : Keeps between after)
    : Keeps before after where
  effective key value found := second.effective key value (first.effective key value found)
  branches branch some_ := by
    have same := first.branches branch some_
    obtain ⟨setting, member, key⟩ := some_
    have kept : setting ∈ before.filter (isBranchKey branch ·.key) :=
      List.mem_filter.mpr ⟨member, key⟩
    rw [← same] at kept
    have still := List.mem_filter.mp kept
    rw [second.branches branch ⟨setting, still.1, still.2⟩, same]
  added setting member := by
    rcases second.added setting member with older | new
    · exact first.added setting older
    · exact .inr new

variable {settings : List Config.Setting}

theorem exists_of_effective {key : Bytes} {value : Option Bytes}
    (found : Config.effective settings key = some value)
    : ∃ setting ∈ settings, setting.key = key := by
  rw [Config.effective, Option.map_eq_some_iff] at found
  obtain ⟨setting, last, -⟩ := found
  have listed := List.mem_filter.mp (List.mem_of_mem_getLast? last)
  exact ⟨setting, listed.1, of_decide_eq_true listed.2⟩

theorem effective_of_mem {setting : Config.Setting}
    (member : setting ∈ settings)
    : ∃ value, Config.effective settings setting.key = some value := by
  have listed : setting ∈ settings.filter (·.key = setting.key) :=
    List.mem_filter.mpr ⟨member, decide_eq_true rfl⟩
  rw [Config.effective]
  cases last : (settings.filter (·.key = setting.key)).getLast? with
  | none =>
      rw [List.getLast?_eq_none_iff.mp last] at listed
      cases listed
  | some other => exact ⟨other.value, rfl⟩

theorem branchStem_eq {other : Text} {name : Bytes} (noDot : 46 ∉ name)
    (key : isBranchKey other (branchStem branch ++ name) = true)
    : branchStem other = branchStem branch := by
  obtain ⟨variable_, same, clean⟩ := isBranchKey_iff.mp key
  have last {front name : Bytes} (noDot : 46 ∉ name)
      : (front ++ [46] ++ name).rtakeWhile (· ≠ 46) = name := by
    rw [List.rtakeWhile, List.reverse_append, List.reverse_append, List.takeWhile_append_of_pos]
    · simp
    · exact fun b member => decide_eq_true fun dot => noDot (dot ▸ List.mem_reverse.mp member)
  have names := congrArg (List.rtakeWhile (· ≠ 46)) same
  rw [branchStem, branchStem, last noDot, last clean] at names
  rw [names] at same
  exact (List.append_cancel_right same).symm

/-- An upstream that is added to a branch without settings. -/
theorem keeps_append (none_ : ∀ setting ∈ settings, isBranchKey branch setting.key = false)
    (upstream : Upstream)
    : Keeps settings (settings ++ branchSettings branch upstream) := by
  have named : ∀ setting ∈ branchSettings branch upstream,
      ∃ name, setting.key = branchStem branch ++ name ∧ 46 ∉ name
        ∧ (name = remoteName ∨ name = mergeName) := by
    intro setting member
    rcases List.mem_pair.mp member with rfl | rfl
    · exact ⟨remoteName, rfl, by decide, .inl rfl⟩
    · exact ⟨mergeName, rfl, by decide, .inr rfl⟩
  refine ⟨fun key value found => ?_, fun other some_ => ?_, fun setting member => ?_⟩
  · obtain ⟨setting, member, same⟩ := exists_of_effective found
    have nothing : (branchSettings branch upstream).filter (·.key = key) = [] := by
      rw [List.filter_eq_nil_iff]
      intro new listed equal
      obtain ⟨name, key', noDot, -⟩ := named new listed
      have hit : isBranchKey branch setting.key = true := by
        rw [same, ← of_decide_eq_true equal]
        exact isBranchKey_iff.mpr ⟨name, key', noDot⟩
      rw [none_ setting member] at hit
      cases hit
    rw [Config.effective, List.filter_append, nothing, List.append_nil]
    exact found
  · have nothing : (branchSettings branch upstream).filter (isBranchKey other ·.key) = [] := by
      rw [List.filter_eq_nil_iff]
      intro new listed key
      obtain ⟨name, key', noDot, -⟩ := named new listed
      rw [key'] at key
      have stems := branchStem_eq noDot key
      obtain ⟨setting, member, hit⟩ := some_
      rw [isBranchKey, stems, ← isBranchKey, none_ setting member] at hit
      cases hit
    rw [List.filter_append, nothing, List.append_nil]
  · rcases List.mem_append.mp member with old | new
    · exact .inl old
    · obtain ⟨name, key, -, known⟩ := named setting new
      rcases known with rfl | rfl
      · exact .inr (.inr ⟨branch, .inl key⟩)
      · exact .inr (.inr ⟨branch, .inr key⟩)

/-- When a seed keeps a configuration: Rust reads it and it has the include spelled as gfs does, or
it only says what a new one says. And where a section is added, the branch can stand in a header and
has no setting yet, in any spelling, and no value goes on behind the file's last line.
-/
structure KeepsConfig (file : Option Bytes) (seed : Seed) : Prop where
  ours
    : (∃ text, readToString file = some text ∧ gfsConfigInclude <:+: text)
      ∨ ∀ settings, settingsOf file = some settings
        → ∀ key value,
          Config.effective settings key = some value
          → Config.effective newSettings key = some value
  unset
    : ∀ branch upstream,
      seed.tracked = some (branch, upstream)
      → hasHeader (carried file) branch = false
      → '\n' ∉ branch
        ∧ Char.ofNat 0 ∉ branch
        ∧ Config.endsBetween (carried file) = true
        ∧ ∀ settings, Config.read (carried file) = some settings
          → ∀ setting ∈ settings, isBranchKey branch setting.key = false

theorem eq_of_readToString {text : Bytes} (read : readToString file = some text)
    : file = some text ∧ (Text.fromUtf8 text).isSome = true :=
  Option.filter_eq_some_iff.mp read

theorem read_newConfig : Config.read newConfig = some newSettings := by
  unfold newConfig gfsConfigInclude newSettings
  repeat rw [String.toList_ofList]
  decide +kernel

variable {seed : Seed}

/-- What a seed goes on from says all that the user's file says. -/
theorem keeps_carried (accepted : settingsOf file = some settings) (safe : KeepsConfig file seed)
    : ∃ base, Config.read (carried file) = some base ∧ Keeps settings base := by
  by_cases recognised : ∃ text, readToString file = some text ∧ gfsConfigInclude <:+: text
  · obtain ⟨text, read, includes⟩ := recognised
    refine ⟨settings, ?_, .refl settings⟩
    rw [carried, read]
    simp only [if_pos includes]
    rw [settingsOf, (eq_of_readToString read).1] at accepted
    exact accepted
  · have new : carried file = newConfig := by
      rw [carried]
      cases read : readToString file with
      | none => rfl
      | some text => exact if_neg fun includes => recognised ⟨text, read, includes⟩
    have said := safe.ours.resolve_left recognised settings accepted
    refine ⟨newSettings, by rw [new, read_newConfig], fun key value => said key value,
      fun branch some_ => ?_, fun setting => fun listed => .inr (.inl listed)⟩
    obtain ⟨setting, member, key⟩ := some_
    obtain ⟨value, found⟩ := effective_of_mem member
    obtain ⟨other, listed, same⟩ := exists_of_effective (said setting.key value found)
    obtain ⟨variable_, split, -⟩ := isBranchKey_iff.mp key
    have first : other.key.head? = some 98 := by
      rw [same, split]
      rfl
    rcases List.mem_cons.mp listed with rfl | listed
    · exact absurd first (by decide +kernel)
    · rcases List.mem_pair.mp listed with rfl | rfl <;> exact absurd first (by decide +kernel)

theorem ended_eq (config : Bytes)
    : (if config ≠ [] ∧ config.getLast? ≠ some 10 then config ++ [10] else config)
      = Config.ended config := by
  rw [Config.ended]
  by_cases done : config = [] ∨ config.getLast? = some 10
  · rw [if_pos done, if_neg (by tauto)]
  · rw [if_neg done, if_pos (by tauto)]

theorem keeps_writeUserConfig (accepted : settingsOf file = some settings)
    (safe : KeepsConfig file seed)
    : ∃ after,
        settingsOf (some (writeUserConfig file seed)) = some after ∧ Keeps settings after := by
  obtain ⟨base, read, keeps⟩ := keeps_carried accepted safe
  rw [settingsOf, Option.getD_some, writeUserConfig]
  cases tracked : seed.tracked with
  | none => exact ⟨base, read, keeps⟩
  | some track =>
      obtain ⟨branch, upstream⟩ := track
      simp only [addUpstream]
      cases header : hasHeader (carried file) branch with
      | true => exact ⟨base, read, keeps⟩
      | false =>
          obtain ⟨noFeed, noNul, between, none_⟩ := safe.unset branch upstream tracked header
          have bracket : (Text.utf8 (branchSection branch upstream)).head? = some 91 := by
            rw [utf8_branchSection]
            rfl
          refine ⟨base ++ branchSettings branch upstream, ?_,
            keeps.trans (keeps_append (none_ base read) upstream)⟩
          rw [ended_eq]
          exact Config.read_append read between (by rw [bracket]; decide) (by rw [bracket]; decide)
            fun reader idle => run_branchSection idle noFeed noNul upstream

-- The agent's branches

theorem linesFrom_append (clean : 10 ∉ line) (seen rest : Bytes)
    : linesFrom seen (line ++ 10 :: rest) = stripReturn (seen ++ line) :: linesFrom [] rest := by
  induction line generalizing seen with
  | nil => rw [List.nil_append, linesFrom, if_pos rfl, List.append_nil]
  | cons b line ih =>
      rw [List.mem_cons, not_or] at clean
      rw [List.cons_append, linesFrom, if_neg (Ne.symm clean.1), ih clean.2, List.append_assoc,
        List.singleton_append]

theorem lines_append (clean : 10 ∉ line) (rest : Bytes)
    : lines (line ++ 10 :: rest) = stripReturn line :: lines rest :=
  linesFrom_append clean [] rest

theorem stripReturn_of_last (last : line.getLast? ≠ some 13)
    : stripReturn line = line :=
  if_neg last

theorem stripReturn_append (front line : Bytes) (some_ : line ≠ [])
    : stripReturn (front ++ line) = front ++ stripReturn line := by
  rw [stripReturn, stripReturn, List.getLast?_append_of_ne_nil _ some_,
    List.dropLast_append_of_ne_nil some_]
  split <;> rfl

theorem stripReturn_sublist (line : Bytes) : stripReturn line <+: line := by
  rw [stripReturn]
  split
  · exact List.dropLast_prefix line
  · exact List.prefix_refl line

theorem splitOnce_eq {target : Bytes} (clean : 32 ∉ target) (name : Bytes)
    : splitOnce (target ++ 32 :: name) = some (target, name) := by
  have noSpace : ∀ b ∈ target, decide (b ≠ 32) = true :=
    fun b member => decide_eq_true fun same => clean (same ▸ member)
  rw [splitOnce, List.dropWhile_append_of_pos noSpace, List.takeWhile_append_of_pos noSpace]
  simp

theorem splitOnce_none (clean : 32 ∉ line) : splitOnce line = none := by
  rw [splitOnce, List.dropWhile_eq_nil_iff.mpr]
  exact fun b member => decide_eq_true fun same => clean (same ▸ member)

theorem keepLine_other (other : ∀ tail, line ≠ 94 :: tail) (records : List Record)
    (last : Option Nat)
    : keepLine (records, last) line
      = match splitOnce line with
        | some (target, name) =>
            if PackedRefs.headsPrefix.isPrefixOf name then
              (records ++ [⟨name, target, none⟩], some records.length)
            else (records, none)
        | none => (records, none) := by
  refine keepLine.eq_3 line records last ?_ ?_
  · exact fun _ tail same _ => other tail same
  · exact fun tail same _ => other tail same

theorem keepLine_none (clean : 32 ∉ line) (records : List Record)
    : keepLine (records, none) line = (records, none) := by
  by_cases other : ∀ tail, line ≠ 94 :: tail
  · rw [keepLine_other other, splitOnce_none clean]
  · obtain ⟨tail, same⟩ := not_forall_not.mp other
    rw [same, keepLine]

theorem modify_last (records : List Record) (last : Record) (change : Record → Record)
    : (records ++ [last]).modify records.length change = records ++ [change last] := by
  induction records with
  | nil => rfl
  | cons record records ih =>
      rw [List.cons_append, List.length_cons, List.modify_succ_cons, ih, List.cons_append]

/-- How a ref has to be written for a seed to read it as Git does: a branch behind a single space
and with no carriage return at its end, another ref behind a space or with none in its name.
-/
def Plain (line : PackedRefs.Line) : Prop :=
  if line.record.isHead then line.separator = 32 ∧ line.record.name.getLast? ≠ some 13
  else line.separator = 32 ∨ 32 ∉ line.record.name

instance (line : PackedRefs.Line) : Decidable (Plain line) := by
  unfold Plain
  infer_instance

/-- The refs that are branches, of the lines of a file. -/
def heads (written : List PackedRefs.Line) : List Record :=
  (written.map PackedRefs.Line.record).filter Record.isHead

section Kept

variable {algorithm : HashAlgorithm} {line : PackedRefs.Line}

theorem hex_clean {digits : Bytes} (hex : PackedRefs.isHex algorithm digits = true)
    : 32 ∉ digits ∧ 10 ∉ digits ∧ 13 ∉ digits := by
  have each := List.all_eq_true.mp (Bool.and_eq_true_iff.mp hex).2
  refine ⟨fun inside => ?_, fun inside => ?_, fun inside => ?_⟩ <;>
    exact absurd (each _ inside) (by decide)

/-- The peeled id behind a ref is attached to what was kept of it. -/
theorem foldl_peeled (fits : line.Fits algorithm) (records : List Record) (rest : Bytes)
    : (lines (PackedRefs.layoutPeeled line.record.peeled ++ rest)).foldl keepLine
          (records ++ [⟨line.record.name, line.record.target, none⟩], some records.length)
        = (lines rest).foldl keepLine (records ++ [line.record], some records.length)
      ∧ (lines (PackedRefs.layoutPeeled line.record.peeled ++ rest)).foldl keepLine
          (records, none)
        = (lines rest).foldl keepLine (records, none) := by
  obtain ⟨separator, name, target, peeled⟩ := line
  cases peeled with
  | none => exact ⟨rfl, rfl⟩
  | some id =>
      obtain ⟨-, feed, carriage⟩ := hex_clean (fits.peeled id rfl)
      have split
          : lines (PackedRefs.layoutPeeled (some id) ++ rest) = (94 :: id) :: lines rest := by
        have whole : PackedRefs.layoutPeeled (some id) ++ rest = (94 :: id) ++ 10 :: rest := by
          simp [PackedRefs.layoutPeeled]
        have last : (94 :: id).getLast? ≠ some 13 := by
          intro ends
          rcases List.mem_cons.mp (List.mem_of_mem_getLast? ends) with caret | inside
          · cases caret
          · exact carriage inside
        rw [whole, lines_append (by simpa using feed), stripReturn_of_last last]
      dsimp only
      rw [split, List.foldl_cons, List.foldl_cons]
      refine ⟨?_, rfl⟩
      rw [keepLine, modify_last]

/-- Of one ref's lines a seed keeps the ref, if it is a branch. -/
theorem foldl_layout (fits : line.Fits algorithm) (plain : Plain line) (records : List Record)
    (last : Option Nat) (rest : Bytes)
    : ∃ last',
        (lines (line.layout ++ rest)).foldl keepLine (records, last)
        = (lines rest).foldl keepLine (records ++ heads [line], last') := by
  obtain ⟨space, feed, carriage⟩ := hex_clean fits.target
  have noCaret := PackedRefs.not_caret_of_isHex fits.target
  obtain ⟨kept, skipped⟩ := foldl_peeled fits records rest
  have whole
      : line.layout ++ rest
        = line.record.target ++ line.separator :: line.record.name
          ++ 10 :: (PackedRefs.layoutPeeled line.record.peeled ++ rest) := by
    simp [PackedRefs.Line.layout]
  have one (noFeed : line.separator ≠ 10)
      : lines (line.layout ++ rest)
        = (line.record.target ++ stripReturn (line.separator :: line.record.name))
          :: lines (PackedRefs.layoutPeeled line.record.peeled ++ rest) := by
    have clean : 10 ∉ line.record.target ++ line.separator :: line.record.name := by
      simp [feed, Ne.symm noFeed, fits.name]
    rw [whole, lines_append clean, stripReturn_append _ _ (List.cons_ne_nil _ _)]
  rw [Plain] at plain
  cases head : line.record.isHead with
  | true =>
      rw [if_pos head] at plain
      obtain ⟨single, ends⟩ := plain
      have itself : stripReturn (32 :: line.record.name) = 32 :: line.record.name := by
        refine stripReturn_of_last ?_
        cases name : line.record.name with
        | nil => simp
        | cons b tail =>
            rw [List.getLast?_cons_cons, ← name]
            exact ends
      have kept_ : heads [line] = [line.record] := by simp [heads, head]
      refine ⟨some records.length, ?_⟩
      rw [one (by rw [single]; decide), single, itself, List.foldl_cons,
        keepLine_other (noCaret _), splitOnce_eq space]
      dsimp only
      rw [if_pos (show PackedRefs.headsPrefix.isPrefixOf line.record.name = true from head), kept,
        kept_]
  | false =>
      rw [if_neg (by simp [head])] at plain
      have kept_ : heads [line] = [] := by simp [heads, head]
      refine ⟨none, ?_⟩
      rw [kept_, List.append_nil, ← skipped]
      by_cases single : line.separator = 32
      · obtain ⟨name', stripped, front⟩
            : ∃ name', stripReturn (32 :: line.record.name) = 32 :: name'
              ∧ name' <+: line.record.name := by
          cases line.record.name with
          | nil => exact ⟨[], rfl, List.prefix_refl _⟩
          | cons b name =>
              exact ⟨_, stripReturn_append [32] (b :: name) (List.cons_ne_nil _ _),
                stripReturn_sublist (b :: name)⟩
        have other : PackedRefs.headsPrefix.isPrefixOf name' = false := by
          refine Bool.eq_false_iff.mpr fun starts => ?_
          have longer := (List.isPrefixOf_iff_prefix.mp starts).trans front
          rw [PackedRefs.Record.isHead, List.isPrefixOf_iff_prefix.mpr longer] at head
          cases head
        rw [one (by rw [single]; decide), single, stripped, List.foldl_cons,
          keepLine_other (noCaret _), splitOnce_eq space]
        dsimp only
        rw [other]
        rfl
      · have noSpace := plain.resolve_left single
        by_cases double : line.separator = 10
        · have target : stripReturn line.record.target = line.record.target :=
            stripReturn_of_last fun ends => carriage (List.mem_of_mem_getLast? ends)
          have split
              : line.layout ++ rest
                = line.record.target
                  ++ 10 :: (line.record.name
                    ++ 10 :: (PackedRefs.layoutPeeled line.record.peeled ++ rest)) := by
            rw [whole, double]
            simp
          have bare : ∀ tail, line.record.target ≠ 94 :: tail := by
            simpa using noCaret []
          rw [split, lines_append feed, lines_append fits.name, List.foldl_cons, target,
            keepLine_other bare, splitOnce_none space, List.foldl_cons]
          dsimp only
          rw [keepLine_none fun inside => noSpace ((stripReturn_sublist _).subset inside)]
        · have clean
              : 32 ∉ line.record.target ++ stripReturn (line.separator :: line.record.name) := by
            intro inside
            rcases List.mem_append.mp inside with digit | after
            · exact space digit
            · rcases List.mem_cons.mp ((stripReturn_sublist _).subset after) with same | named
              · exact single same.symm
              · exact noSpace named
          rw [one double, List.foldl_cons, keepLine_other (noCaret _), splitOnce_none clean]

theorem foldl_lines {written : List PackedRefs.Line}
    (fits : ∀ line ∈ written, PackedRefs.Line.Fits algorithm line)
    (plain : ∀ line ∈ written, Plain line) (records : List Record) (last : Option Nat)
    : ((lines (written.flatMap PackedRefs.Line.layout)).foldl keepLine (records, last)).1
      = records ++ heads written := by
  induction written generalizing records last with
  | nil => simp [lines, linesFrom, heads]
  | cons line written ih =>
      obtain ⟨here, later⟩ := List.forall_mem_cons.mp fits
      obtain ⟨plainHere, plainLater⟩ := List.forall_mem_cons.mp plain
      obtain ⟨last', step⟩ := foldl_layout here plainHere records last
        (written.flatMap PackedRefs.Line.layout)
      have split : heads (line :: written) = heads [line] ++ heads written := by
        rw [heads, heads, heads, ← List.filter_append, ← List.map_append, List.singleton_append]
      rw [List.flatMap_cons, step, ih later plainLater, split, List.append_assoc]

/-- Of a file that Git accepts a seed keeps the branches, as Git reads them. -/
theorem foldl_read {file : Bytes} {written : List PackedRefs.Line}
    (accepted : PackedRefs.read algorithm file = some written)
    (plain : ∀ line ∈ written, Plain line) (records : List Record)
    : ((lines file).foldl keepLine (records, none)).1 = records ++ heads written := by
  obtain ⟨header, headed, rfl, fits⟩ := PackedRefs.layout_of_read accepted
  rcases headed with rfl | ⟨more, rfl, clean⟩
  · exact foldl_lines fits plain records none
  · have split
        : PackedRefs.traits ++ more ++ [10] ++ written.flatMap PackedRefs.Line.layout
          = (PackedRefs.traits ++ more) ++ 10 :: written.flatMap PackedRefs.Line.layout := by
      simp
    have noFeed : 10 ∉ PackedRefs.traits ++ more := by
      rw [List.mem_append, not_or]
      exact ⟨by decide +kernel, clean⟩
    obtain ⟨more', stripped⟩
        : ∃ more', stripReturn (PackedRefs.traits ++ more) = PackedRefs.traits ++ more' := by
      cases more with
      | nil => exact ⟨[], by decide +kernel⟩
      | cons b more => exact ⟨_, stripReturn_append _ (b :: more) (List.cons_ne_nil _ _)⟩
    have skipped : keepLine (records, none) (PackedRefs.traits ++ more') = (records, none) := by
      rw [keepLine_other (fun tail same => by cases same)]
      rfl
    rw [split, lines_append noFeed, stripped, List.foldl_cons, skipped]
    exact foldl_lines fits plain records none

end Kept

-- The pinned refs

/-- A ref goes into a workspace under its own name, as a tag or of a clone's remote, or as a branch
under the one remote that has the clone's or the gateway's branches.
-/
theorem mapped_cases {name mapped : Text} (found : seed.mapped name = some mapped)
    : (mapped = name ∧ "refs/tags/".toList <+: name)
      ∨ (seed.cloneRemotes = none
        ∧ ∃ branch,
          name = "refs/heads/".toList ++ branch ∧ mapped = "refs/remotes/origin/".toList ++ branch)
      ∨ ∃ remotes,
        seed.cloneRemotes = some remotes
        ∧ ((remotes.localAdded = true
            ∧ ∃ branch,
              name = "refs/heads/".toList ++ branch
              ∧ mapped = "refs/remotes/local/".toList ++ branch)
          ∨ (mapped = name
            ∧ "refs/remotes/".toList <+: name
            ∧ (remotes.localAdded = true → ¬"refs/remotes/local/".toList <+: name))) := by
  rw [Seed.mapped] at found
  cases clone : seed.cloneRemotes with
  | none =>
      rw [clone] at found
      dsimp only at found
      cases tag : "refs/tags/".toList.isPrefixOf? name with
      | some rest =>
          rw [tag] at found
          have same := List.isPrefixOf?_eq_some_iff_append_eq.mp tag
          exact .inl ⟨(Option.some.inj found).symm.trans same, ⟨rest, same⟩⟩
      | none =>
          rw [tag] at found
          cases head : "refs/heads/".toList.isPrefixOf? name with
          | none =>
              rw [head] at found
              cases found
          | some branch =>
              rw [head] at found
              exact .inr (.inl ⟨rfl, branch,
                (List.isPrefixOf?_eq_some_iff_append_eq.mp head).symm,
                (Option.some.inj found).symm⟩)
  | some remotes =>
      rw [clone] at found
      dsimp only at found
      rw [CloneRemotes.workspaceRef] at found
      split at found
      · rename_i tag
        exact .inl ⟨(Option.some.inj found).symm, tag⟩
      · cases head : "refs/heads/".toList.isPrefixOf? name with
        | some branch =>
            rw [head] at found
            dsimp only at found
            split at found
            · rename_i added
              exact .inr (.inr ⟨remotes, rfl, .inl ⟨added, branch,
                (List.isPrefixOf?_eq_some_iff_append_eq.mp head).symm,
                (Option.some.inj found).symm⟩⟩)
            · cases found
        | none =>
            rw [head] at found
            dsimp only at found
            split at found
            · rename_i remote
              split at found
              · rename_i open_
                refine .inr (.inr ⟨remotes, rfl,
                  .inr ⟨(Option.some.inj found).symm, remote, fun added shadows => ?_⟩⟩)
                rw [added, List.isPrefixOf_iff_prefix.mpr shadows] at open_
                simp at open_
              · cases found
            · cases found

private theorem fifth_of_tag (tag : "refs/tags/".toList <+: text)
    : text[5]? = some 't' := by
  obtain ⟨rest, rfl⟩ := tag
  rfl

private theorem fifth_of_remote (remote : "refs/remotes/".toList <+: text)
    : text[5]? = some 'r' := by
  obtain ⟨rest, rfl⟩ := remote
  rfl

private theorem remote_of_origin (branch : Text)
    : "refs/remotes/".toList <+: "refs/remotes/origin/".toList ++ branch :=
  ⟨"origin/".toList ++ branch, rfl⟩

private theorem remote_of_local (branch : Text)
    : "refs/remotes/".toList <+: "refs/remotes/local/".toList ++ branch :=
  ⟨"local/".toList ++ branch, rfl⟩

theorem mapped_front {name mapped : Text} (found : seed.mapped name = some mapped)
    : "refs/tags/".toList <+: mapped ∧ mapped = name ∨ "refs/remotes/".toList <+: mapped := by
  rcases mapped_cases found with
    ⟨rfl, tag⟩ | ⟨-, branch, -, rfl⟩ | ⟨remotes, -, ⟨-, branch, -, rfl⟩ | ⟨rfl, remote, -⟩⟩
  · exact .inl ⟨tag, rfl⟩
  · exact .inr (remote_of_origin branch)
  · exact .inr (remote_of_local branch)
  · exact .inr remote

/-- Refs of different names stay apart. -/
theorem mapped_injective {left right mapped : Text}
    (first : seed.mapped left = some mapped) (second : seed.mapped right = some mapped)
    : left = right := by
  have apart {text : Text} (tag : text[5]? = some 't') (remote : "refs/remotes/".toList <+: text)
      : False := by
    rw [fifth_of_remote remote] at tag
    exact absurd tag (by decide)
  rcases mapped_cases first with
    ⟨same, tag⟩ | ⟨clone, branch, rfl, rfl⟩
      | ⟨remotes, clone, ⟨added, branch, rfl, rfl⟩ | ⟨same, remote, hidden⟩⟩
  · rcases mapped_front second with ⟨-, same'⟩ | remote
    · exact same.symm.trans same'
    · rw [same] at remote
      exact (apart (fifth_of_tag tag) remote).elim
  · rcases mapped_cases second with
      ⟨rfl, tag⟩ | ⟨-, branch', rfl, same⟩ | ⟨remotes, clone', -⟩
    · exact (apart (fifth_of_tag tag) (remote_of_origin branch)).elim
    · rw [List.append_cancel_left same]
    · rw [clone] at clone'
      cases clone'
  · rcases mapped_cases second with
      ⟨rfl, tag⟩ | ⟨clone', -⟩
        | ⟨remotes', clone', ⟨-, branch', rfl, same⟩ | ⟨rfl, -, hidden⟩⟩
    · exact (apart (fifth_of_tag tag) (remote_of_local branch)).elim
    · rw [clone] at clone'
      cases clone'
    · rw [List.append_cancel_left same]
    · rw [clone] at clone'
      cases clone'
      exact (hidden added (List.prefix_append ..)).elim
  · rcases mapped_cases second with
      ⟨same', tag⟩ | ⟨clone', -⟩
        | ⟨remotes', clone', ⟨added, branch', -, shadows⟩ | ⟨same', -, -⟩⟩
    · exact same.symm.trans same'
    · rw [clone] at clone'
      cases clone'
    · rw [clone] at clone'
      cases clone'
      rw [← same, shadows] at hidden
      exact (hidden added (List.prefix_append ..)).elim
    · exact same.symm.trans same'

/-- No pinned ref is written over an agent's branch. -/
theorem pinned_not_head {ref : RefTarget} {record : Record}
    (found : seed.pinned ref = some record)
    : record.isHead = false := by
  obtain ⟨mapped, renamed, rfl⟩ := Option.map_eq_some_iff.mp found
  refine Bool.eq_false_iff.mpr fun head => ?_
  obtain ⟨rest, same⟩ := List.isPrefixOf_iff_prefix.mp head
  have fifth : mapped.utf8[5]? = some 104 := by
    change _ = mapped.utf8 at same
    rw [← same]
    rfl
  rcases mapped_front renamed with ⟨⟨tail, rfl⟩, -⟩ | ⟨tail, rfl⟩
  · have tags
        : Text.utf8 "refs/tags/".toList = [114, 101, 102, 115, 47, 116, 97, 103, 115, 47] := by
      decide +kernel
    rw [Text.utf8_append, tags] at fifth
    cases fifth
  · have remotes
        : Text.utf8 "refs/remotes/".toList
          = [114, 101, 102, 115, 47, 114, 101, 109, 111, 116, 101, 115, 47] := by
      decide +kernel
    rw [Text.utf8_append, remotes] at fifth
    cases fifth

/-- An object id's digits are what Git expects of an id of its kind. -/
theorem isHex_toHex {oid : ObjectId} (sized : oid.Sized)
    : PackedRefs.isHex oid.algorithm (toHex oid.raw).utf8 = true := by
  have digit : ∀ value, value < 16
      → (hexChar value).toNat < 128
        ∧ PackedRefs.isHexDigit (hexChar value).toNat.toUInt8 = true := by
    unfold hexChar
    rw [String.toList_ofList]
    decide +kernel
  have each : ∀ c ∈ toHex oid.raw, c.toNat < 128
      ∧ PackedRefs.isHexDigit c.toNat.toUInt8 = true := by
    intro c member
    obtain ⟨byte, -, inside⟩ := List.mem_flatMap.mp member
    have small := byte.toNat_lt
    rcases List.mem_pair.mp inside with rfl | rfl
    · exact digit _ (by omega)
    · exact digit _ (by omega)
  rw [PackedRefs.isHex, Bool.and_eq_true]
  constructor
  · rw [Text.utf8_length, toHex_len, sized, HashAlgorithm.hexLen]
    exact decide_eq_true rfl
  · rw [Text.utf8_ascii fun c member => (each c member).1, List.all_map, List.all_eq_true]
    exact fun c member => (each c member).2

theorem compare_name_of_order {left right : Record} (le : (order left right).isLE = true)
    (apart : left.name ≠ right.name)
    : compare left.name right.name = .lt := by
  rw [order, compareLex, compareOn] at le
  cases same : compare left.name right.name with
  | lt => rfl
  | eq => exact absurd (Std.LawfulEqCmp.eq_of_compare same) apart
  | gt =>
      rw [same] at le
      cases le

instance : Std.TransCmp order :=
  inferInstanceAs (Std.TransCmp (compareLex _ _))

theorem sorted_names {records : List Record} (once : (records.map Record.name).Nodup)
    : (records.insertionSort fun left right => (order left right).isLE).Pairwise
        fun left right => compare left.name right.name = .lt := by
  have total : Std.Total fun left right : Record => (order left right).isLE = true :=
    ⟨fun left right => by
      have swap : order right left = (order left right).swap := Std.OrientedCmp.eq_swap
      rw [swap, Ordering.isLE_swap]
      cases order left right <;> simp⟩
  have trans : IsTrans Record fun left right => (order left right).isLE = true :=
    ⟨fun _ _ _ => Std.TransCmp.isLE_trans⟩
  have perm := List.perm_insertionSort (fun left right : Record => (order left right).isLE) records
  have names := List.pairwise_map.mp ((perm.map Record.name).nodup_iff.mpr once)
  have sorted := List.pairwise_insertionSort
    (fun left right : Record => (order left right).isLE = true) records
  exact (sorted.and names).imp fun both => compare_name_of_order both.1 both.2

/-- The refs of a file; a file that is not there has none. -/
def refsOf (algorithm : HashAlgorithm) : Option Bytes → Option (List PackedRefs.Line)
  | none => some []
  | some file => PackedRefs.read algorithm file

/-- When a seed that has the repository's refs keeps the agent's: the pinned refs have ids of the
repository's kind, names that fill a line and are listed once; and of the file, Rust reads it if it
holds a branch, then its refs are written plainly, and no branch is listed twice.
-/
structure KeepsRefs (algorithm : HashAlgorithm) (file : Option Bytes) (seed : Seed)
    (refs : List RefTarget) : Prop where
  ids
    : ∀ ref ∈ refs, (seed.mapped ref.name).isSome
      → ∀ oid, oid = ref.target ∨ ref.peeled = some oid → oid.algorithm = algorithm ∧ oid.Sized
  names : ∀ ref ∈ refs, (seed.mapped ref.name).isSome → '\n' ∉ ref.name
  distinct : ((refs.filter fun ref => (seed.mapped ref.name).isSome).map RefTarget.name).Nodup
  readable
    : ∀ written, refsOf algorithm file = some written
      → heads written ≠ []
      → (readToString file).isSome
  plain
    : ∀ written, refsOf algorithm file = some written
      → (readToString file).isSome
      → ∀ line ∈ written, Plain line
  once : ∀ written, refsOf algorithm file = some written → ((heads written).map Record.name).Nodup

theorem layout_spaced (record : Record)
    : PackedRefs.Line.layout ⟨32, record⟩ = writeRecord record := by
  obtain ⟨name, target, peeled⟩ := record
  cases peeled <;> simp [PackedRefs.Line.layout, PackedRefs.layoutPeeled, writeRecord]

/-- What a file can hold of a pinned ref. -/
theorem pinned_fits {algorithm : HashAlgorithm} {ref : RefTarget} {record : Record}
    (ids : ∀ oid, oid = ref.target ∨ ref.peeled = some oid → oid.algorithm = algorithm ∧ oid.Sized)
    (name : '\n' ∉ ref.name) (found : seed.pinned ref = some record)
    : PackedRefs.Line.Fits algorithm ⟨32, record⟩ := by
  obtain ⟨mapped, renamed, rfl⟩ := Option.map_eq_some_iff.mp found
  have hex {oid : ObjectId} (known : oid = ref.target ∨ ref.peeled = some oid)
      : PackedRefs.isHex algorithm (toHex oid.raw).utf8 = true := by
    obtain ⟨same, sized⟩ := ids oid known
    rw [← same]
    exact isHex_toHex sized
  have oneLine : '\n' ∉ mapped := by
    rcases mapped_cases renamed with
      ⟨rfl, -⟩ | ⟨-, branch, named, rfl⟩ | ⟨remotes, -, ⟨-, branch, named, rfl⟩ | ⟨rfl, -⟩⟩
    · exact name
    · rw [named, List.mem_append, not_or] at name
      exact List.mem_append.not.mpr (not_or.mpr ⟨by decide, name.2⟩)
    · rw [named, List.mem_append, not_or] at name
      exact List.mem_append.not.mpr (not_or.mpr ⟨by decide, name.2⟩)
    · exact name
  refine ⟨hex (.inl rfl), rfl, notMem_utf8 (c := '\n') (by decide) oneLine, fun peeled member => ?_⟩
  obtain ⟨oid, known, rfl⟩ := Option.map_eq_some_iff.mp member
  exact hex (.inr known)

theorem pinned_once {refs : List RefTarget}
    (distinct : ((refs.filter fun ref => (seed.mapped ref.name).isSome).map RefTarget.name).Nodup)
    : ((refs.filterMap seed.pinned).map Record.name).Nodup := by
  induction refs with
  | nil => exact .nil
  | cons ref refs ih =>
      cases renamed : seed.mapped ref.name with
      | none =>
          have skipped : seed.pinned ref = none := by rw [Seed.pinned, renamed]; rfl
          rw [List.filter_cons_of_neg (by simp [renamed])] at distinct
          rw [List.filterMap_cons_none skipped]
          exact ih distinct
      | some mapped =>
          obtain ⟨record, kept, name⟩
              : ∃ record, seed.pinned ref = some record ∧ record.name = mapped.utf8 := by
            rw [Seed.pinned, renamed]
            exact ⟨_, rfl, rfl⟩
          rw [List.filter_cons_of_pos (by simp [renamed]), List.map_cons, List.nodup_cons]
            at distinct
          rw [List.filterMap_cons_some kept, List.map_cons, List.nodup_cons]
          refine ⟨fun again => distinct.1 ?_, ih distinct.2⟩
          obtain ⟨other, listed, same⟩ := List.mem_map.mp again
          obtain ⟨ref', member, found⟩ := List.mem_filterMap.mp listed
          obtain ⟨mapped', renamed', rfl⟩ := Option.map_eq_some_iff.mp found
          have equal : mapped' = mapped := by
            rw [name] at same
            exact Option.some.inj ((Text.fromUtf8_eq_some.mpr rfl).symm.trans
              ((congrArg Text.fromUtf8 same).trans (Text.fromUtf8_eq_some.mpr rfl)))
          rw [equal] at renamed'
          rw [mapped_injective renamed renamed']
          exact List.mem_map_of_mem (List.mem_filter.mpr ⟨member, by simp [renamed']⟩)

/-- A file that a seed writes has the agent's branches and the pinned refs, in ascending order. -/
theorem keeps_writePackedRefs {algorithm : HashAlgorithm} {refs : List RefTarget}
    {written : List PackedRefs.Line} (accepted : refsOf algorithm file = some written)
    (safe : KeepsRefs algorithm file seed refs)
    : ∃ after,
        refsOf algorithm (some (writePackedRefs file seed refs)) = some after
        ∧ (after.Pairwise fun left right => compare left.record.name right.record.name = .lt)
        ∧ ∀ record,
          record ∈ after.map PackedRefs.Line.record
          ↔ record ∈ heads written ∨ record ∈ refs.filterMap seed.pinned := by
  have kept
      : (match readToString file with
          | some previous => ((lines previous).foldl keepLine (refs.filterMap seed.pinned, none)).1
          | none => refs.filterMap seed.pinned)
        = refs.filterMap seed.pinned ++ heads written := by
    cases read : readToString file with
    | none =>
        have nothing : heads written = [] := by
          by_contra some_
          have readable := safe.readable written accepted some_
          rw [read] at readable
          cases readable
        rw [nothing, List.append_nil]
    | some previous =>
        have same := (eq_of_readToString read).1
        rw [same] at accepted
        have plain := safe.plain written (by rw [same]; exact accepted) (by rw [read]; rfl)
        exact foldl_read accepted plain _
  have once : ((refs.filterMap seed.pinned ++ heads written).map Record.name).Nodup := by
    rw [List.map_append, List.nodup_append']
    refine ⟨pinned_once safe.distinct, safe.once written accepted, fun name first second => ?_⟩
    obtain ⟨pinned, listed, rfl⟩ := List.mem_map.mp first
    obtain ⟨ref, -, found⟩ := List.mem_filterMap.mp listed
    obtain ⟨head, branch, same⟩ := List.mem_map.mp second
    have isHead := (List.mem_filter.mp branch).2
    rw [Record.isHead, same, ← Record.isHead, pinned_not_head found] at isHead
    cases isHead
  have fits : ∀ record ∈ refs.filterMap seed.pinned ++ heads written,
      PackedRefs.Line.Fits algorithm ⟨32, record⟩ := by
    intro record member
    rcases List.mem_append.mp member with new | old
    · obtain ⟨ref, listed, found⟩ := List.mem_filterMap.mp new
      have mapped : (seed.mapped ref.name).isSome := by
        obtain ⟨name, renamed, -⟩ := Option.map_eq_some_iff.mp found
        rw [renamed]
        rfl
      exact pinned_fits (safe.ids ref listed mapped) (safe.names ref listed mapped) found
    · obtain ⟨line, listed, rfl⟩ := List.mem_map.mp (List.mem_filter.mp old).1
      have lineFits : line.Fits algorithm := by
        cases file with
        | none =>
            cases accepted
            cases listed
        | some bytes =>
            obtain ⟨header, -, -, all⟩ := PackedRefs.layout_of_read accepted
            exact all line listed
      exact ⟨lineFits.target, rfl, lineFits.name, lineFits.peeled⟩
  have perm := List.perm_insertionSort (fun left right : Record => (order left right).isLE)
    (refs.filterMap seed.pinned ++ heads written)
  have sorted := sorted_names once
  have written_
      : writePackedRefs file seed refs
        = packedHeader
          ++ ((refs.filterMap seed.pinned ++ heads written).insertionSort fun left right =>
              (order left right).isLE).flatMap writeRecord := by
    rw [writePackedRefs, ← kept]
  generalize (refs.filterMap seed.pinned ++ heads written).insertionSort
    (fun left right => (order left right).isLE) = records at perm sorted written_
  have split
      : packedHeader ++ records.flatMap writeRecord
        = PackedRefs.traits ++ Text.utf8 " peeled fully-peeled sorted ".toList
          ++ 10 :: (records.map (PackedRefs.Line.mk 32)).flatMap PackedRefs.Line.layout := by
    have header
        : packedHeader
          = PackedRefs.traits ++ Text.utf8 " peeled fully-peeled sorted ".toList ++ [10] := by
      decide +kernel
    rw [header, List.flatMap_map, List.append_assoc _ [10], List.singleton_append]
    simp only [layout_spaced]
  refine ⟨records.map (PackedRefs.Line.mk 32), ?_, List.pairwise_map.mpr sorted, fun record => ?_⟩
  · rw [written_, split]
    refine PackedRefs.read_layout (fun line member => ?_) (by decide +kernel)
    obtain ⟨record, listed, rfl⟩ := List.mem_map.mp member
    exact fits record (perm.mem_iff.mp listed)
  · have same : PackedRefs.Line.record ∘ PackedRefs.Line.mk 32 = id := rfl
    rw [List.map_map, same, List.map_id, perm.mem_iff, List.mem_append, or_comm]

-- Runs of seeds

/-- When a seed keeps what is the user's. -/
structure Safe (algorithm : HashAlgorithm) (files : Files) (seed : Seed) : Prop where
  config : KeepsConfig files.config seed
  refs
    : ∀ refs, seed.facts.refs = some refs → KeepsRefs algorithm files.packedRefs seed refs

/-- The user's settings and the agent's branches are still there. -/
structure Kept (algorithm : HashAlgorithm) (settings : List Config.Setting)
    (written : List PackedRefs.Line) (files : Files) : Prop where
  settings : ∃ after, settingsOf files.config = some after ∧ Keeps settings after
  branches
    : ∃ after,
        refsOf algorithm files.packedRefs = some after
        ∧ ∀ record, record ∈ heads after ↔ record ∈ heads written

/-- The packed refs that a seed has written: they ascend, and those that are no branch of the
agent's are the pinned ones.
-/
def WritesPinned (algorithm : HashAlgorithm) (seed : Seed) (refs : List RefTarget) (files : Files)
    : Prop :=
  ∃ after,
    refsOf algorithm files.packedRefs = some after
    ∧ (after.Pairwise fun left right => compare left.record.name right.record.name = .lt)
    ∧ ∀ record,
      record ∈ after.map PackedRefs.Line.record ∧ record.isHead = false
      ↔ ∃ ref ∈ refs, seed.pinned ref = some record

section Runs

variable {algorithm : HashAlgorithm} {settings : List Config.Setting}
  {written : List PackedRefs.Line} {files : Files} {seed : Seed}

theorem Kept.writesPinned (kept : Kept algorithm settings written files)
    (safe : Safe algorithm files seed) {refs : List RefTarget} (given : seed.facts.refs = some refs)
    : WritesPinned algorithm seed refs (files.seeded seed) := by
  obtain ⟨before, read, -⟩ := kept.branches
  obtain ⟨after, reads, ascending, exact_⟩ := keeps_writePackedRefs read (safe.refs refs given)
  refine ⟨after, by rw [Files.seeded, given]; exact reads, ascending, fun record => ?_⟩
  rw [exact_ record]
  constructor
  · rintro ⟨old | new, other⟩
    · rw [(List.mem_filter.mp old).2] at other
      cases other
    · exact List.mem_filterMap.mp new
  · rintro ⟨ref, member, found⟩
    exact ⟨.inr (List.mem_filterMap.mpr ⟨ref, member, found⟩), pinned_not_head found⟩

theorem Kept.step (kept : Kept algorithm settings written files)
    (safe : Safe algorithm files seed)
    : Kept algorithm settings written (files.seeded seed) := by
  constructor
  · obtain ⟨before, read, keeps⟩ := kept.settings
    obtain ⟨after, reads, still⟩ := keeps_writeUserConfig read safe.config
    exact ⟨after, reads, keeps.trans still⟩
  · obtain ⟨before, read, same⟩ := kept.branches
    cases given : seed.facts.refs with
    | none => exact ⟨before, by rw [Files.seeded, given]; exact read, same⟩
    | some refs =>
        obtain ⟨after, reads, -, exact_⟩ := keeps_writePackedRefs read (safe.refs refs given)
        refine ⟨after, by rw [Files.seeded, given]; exact reads, fun record => ?_⟩
        rw [← same, heads, List.mem_filter, exact_ record]
        constructor
        · rintro ⟨old | new, isHead⟩
          · exact old
          · obtain ⟨ref, -, found⟩ := List.mem_filterMap.mp new
            rw [pinned_not_head found] at isHead
            cases isHead
        · exact fun old => ⟨.inl old, (List.mem_filter.mp old).2⟩

end Runs

/-- Along any sequence of safe seeds the user's settings and the agent's branches are kept, and each
file of packed refs that is written ascends and has the pinned refs besides.
-/
theorem seeds_keep_users (algorithm : HashAlgorithm) (files : Files) (seeds : List Seed)
    (settings : List Config.Setting) (written : List PackedRefs.Line)
    (config : settingsOf files.config = some settings)
    (packed : refsOf algorithm files.packedRefs = some written)
    (safe : Lib.Runs.Along Files.seeded (Safe algorithm) files seeds)
    : (∀ after ∈ Lib.Runs.states Files.seeded files seeds, Kept algorithm settings written after)
      ∧ ∀ earlier seed later refs,
        seeds = earlier ++ seed :: later
        → seed.facts.refs = some refs
        → WritesPinned algorithm seed refs ((earlier.foldl Files.seeded files).seeded seed) := by
  have start : Kept algorithm settings written files :=
    ⟨⟨settings, config, .refl settings⟩, ⟨written, packed, fun _ => Iff.rfl⟩⟩
  constructor
  · exact Lib.Runs.invariant (fun _ _ kept safe => kept.step safe) start safe
  · rintro earlier seed later refs rfl given
    obtain ⟨front, here, -⟩ := Lib.Runs.Along.append.mp safe
    have kept := Lib.Runs.invariant (fun _ _ kept safe => kept.step safe) start front _
      (Lib.Runs.foldl_mem_states Files.seeded files earlier)
    exact kept.writesPinned here given

/-- A seed of the branch `main`, which the gateway has, with a tag. -/
def mainSeed : Seed where
  facts :=
    { refName := some "refs/heads/main".toList
      refs :=
        some
          [⟨"refs/heads/main".toList, ⟨.sha1, List.replicate 20 17⟩, none⟩,
            ⟨"refs/tags/v1".toList, ⟨.sha1, List.replicate 20 34⟩,
              some ⟨.sha1, List.replicate 20 17⟩⟩]
      workRefRoot := some "refs/gfs/work/ann".toList }
  cloneRemotes := none
  trackUpstream := true

theorem mainSeed_tracked
    : mainSeed.tracked = some ("main".toList, ⟨"origin".toList, "refs/heads/main".toList⟩) := by
  decide +kernel

theorem writeUserConfig_mainSeed (file : Option Bytes)
    : writeUserConfig file mainSeed
      = addUpstream (carried file) "main".toList
          ⟨"origin".toList, "refs/heads/main".toList⟩ := by
  rw [writeUserConfig, mainSeed_tracked]

theorem carried_newConfig (text : Text)
    : readToString (some (newConfig ++ text.utf8)) = some (newConfig ++ text.utf8)
      ∧ gfsConfigInclude <:+: newConfig ++ text.utf8
      ∧ carried (some (newConfig ++ text.utf8)) = newConfig ++ text.utf8 := by
  have valid : (Text.fromUtf8 (newConfig ++ text.utf8)).isSome := by
    rw [newConfig, gfsConfigInclude, ← Text.utf8_append, ← Text.utf8_append,
      Text.fromUtf8_eq_some.mpr rfl]
    rfl
  have read : readToString (some (newConfig ++ text.utf8)) = some (newConfig ++ text.utf8) := by
    rw [readToString, Option.filter_some, if_pos valid]
  have includes : gfsConfigInclude <:+: newConfig ++ text.utf8 := ⟨_, _, rfl⟩
  refine ⟨read, includes, ?_⟩
  rw [carried, read]
  exact if_pos includes

/-- A seeded workspace whose user has set a name and packed a branch. -/
def userFiles : Files where
  config := some (newConfig ++ Text.utf8 "[user]\n\tname = Ann\n".toList)
  packedRefs :=
    some (packedHeader ++ List.replicate 40 51 ++ Text.utf8 " refs/heads/mine\n".toList)

/-- The user's name and branch are kept. -/
theorem mainSeed_keeps_users
    : ((settingsOf (userFiles.seeded mainSeed).config).map fun settings =>
          (Config.effective settings (Text.utf8 "user.name".toList),
            Config.effective settings (Text.utf8 "branch.main.remote".toList)))
        = some (some (some (Text.utf8 "Ann".toList)), some (some (Text.utf8 "origin".toList)))
      ∧ WritesPinned .sha1 mainSeed (mainSeed.facts.refs.getD []) (userFiles.seeded mainSeed) := by
  have config
      : settingsOf userFiles.config
        = some (newSettings
          ++ [⟨Text.utf8 "user.name".toList, some (Text.utf8 "Ann".toList)⟩]) := by
    unfold userFiles newConfig gfsConfigInclude newSettings
    repeat rw [String.toList_ofList]
    decide +kernel
  have packed
      : refsOf .sha1 userFiles.packedRefs
        = some [⟨32, Text.utf8 "refs/heads/mine".toList, List.replicate 40 51, none⟩] := by
    unfold userFiles packedHeader
    repeat rw [String.toList_ofList]
    decide +kernel
  obtain ⟨reads, includes, same⟩ := carried_newConfig "[user]\n\tname = Ann\n".toList
  have same : carried userFiles.config = userFiles.config.getD [] := same
  have safe : Safe .sha1 userFiles mainSeed := by
    refine ⟨⟨.inl ⟨_, reads, includes⟩, ?_⟩, ?_⟩
    · rintro branch upstream found -
      rw [mainSeed_tracked] at found
      cases found
      refine ⟨by decide, by decide, by decide +kernel, fun settings read => ?_⟩
      rw [same] at read
      cases config.symm.trans read
      decide +kernel
    · rintro refs given
      cases given
      refine ⟨?_, by decide +kernel, by decide +kernel, fun _ _ _ => by decide +kernel,
        fun written read _ => ?_, fun written read => ?_⟩
      · intro ref member _ oid known
        rcases List.mem_pair.mp member with rfl | rfl <;> rcases known with rfl | known
        · exact ⟨rfl, rfl⟩
        · cases known
        · exact ⟨rfl, rfl⟩
        · cases known
          exact ⟨rfl, rfl⟩
      · cases packed.symm.trans read
        decide +kernel
      · cases packed.symm.trans read
        decide +kernel
  obtain ⟨-, pinned⟩ :=
    seeds_keep_users .sha1 userFiles [mainSeed] _ _ config packed ⟨safe, trivial⟩
  refine ⟨?_, pinned [] mainSeed [] _ rfl rfl⟩
  rw [Files.seeded, writeUserConfig_mainSeed, same]
  unfold userFiles newConfig gfsConfigInclude
  repeat rw [String.toList_ofList]
  decide +kernel

theorem lt_of_mem_utf8 : ∀ b ∈ text.utf8, b.toNat < 245 := by
  intro b member
  obtain ⟨c, -, inside⟩ := List.mem_flatMap.mp member
  have bounded : c.val.toNat < 1114112 := by
    rcases c.valid with small | ⟨-, small⟩
    · exact Nat.lt_trans small (by decide)
    · exact small
  rw [String.utf8EncodeChar] at inside
  generalize c.val.toNat = v at inside bounded
  split_ifs at inside
  all_goals
    simp only [List.mem_cons, List.not_mem_nil, or_false] at inside
    rcases inside with rfl | rfl | rfl | rfl <;> rw [UInt8.toNat_ofNat'] <;> omega

theorem readToString_latin {file : Bytes} (latin : 0xF6 ∈ file)
    : readToString (some file) = none := by
  rw [readToString, Option.filter_some, if_neg]
  intro valid
  obtain ⟨text, read⟩ := Option.isSome_iff_exists.mp valid
  rw [Text.fromUtf8_eq_some.mp read] at latin
  exact absurd (lt_of_mem_utf8 _ latin) (by decide)

/-- A configuration whose user's name is not UTF-8. -/
def latinConfig : Bytes :=
  newConfig ++ Text.utf8 "[user]\n\tname = J".toList ++ [0xF6] ++ Text.utf8 "rg\n".toList

/-- A configuration whose branch has a header with a remark behind it. -/
def remarkedConfig : Bytes :=
  newConfig ++ Text.utf8 "[branch \"main\"] # mine\n\tremote = fork\n".toList

/-- A packed branch, and a packed tag whose name is not UTF-8. -/
def latinRefs : Bytes :=
  packedHeader ++ List.replicate 40 51 ++ Text.utf8 " refs/heads/mine\n".toList
    ++ List.replicate 40 52 ++ Text.utf8 " refs/tags/".toList ++ [0xF6, 10]

/-- The name is lost with the whole file, the branch tracks another remote, and the packed branch is
gone.
-/
theorem seeds_lose_users
    : ((settingsOf (some latinConfig)).map (Config.effective · (Text.utf8 "user.name".toList))
          = some (some (some [74, 0xF6, 114, 103]))
        ∧ (settingsOf (some (writeUserConfig (some latinConfig) mainSeed))).map
            (Config.effective · (Text.utf8 "user.name".toList))
          = some none)
      ∧ ((settingsOf (some remarkedConfig)).map
            (Config.effective · (Text.utf8 "branch.main.remote".toList))
          = some (some (some (Text.utf8 "fork".toList)))
        ∧ (settingsOf (some (writeUserConfig (some remarkedConfig) mainSeed))).map
            (Config.effective · (Text.utf8 "branch.main.remote".toList))
          = some (some (some (Text.utf8 "origin".toList))))
      ∧ (refsOf .sha1 (some latinRefs)).map (fun written => (heads written).length) = some 1
      ∧ (refsOf .sha1 (some (writePackedRefs (some latinRefs) mainSeed []))).map
          (fun written => (heads written).length)
        = some 0 := by
  have unread : carried latinConfig = newConfig := by
    rw [carried, readToString_latin (by simp [latinConfig])]
  have remark : carried remarkedConfig = remarkedConfig := (carried_newConfig _).2.2
  refine ⟨⟨?_, ?_⟩, ⟨?_, ?_⟩, ?_, ?_⟩
  · unfold latinConfig newConfig gfsConfigInclude
    repeat rw [String.toList_ofList]
    decide +kernel
  · rw [writeUserConfig_mainSeed, unread]
    unfold newConfig gfsConfigInclude
    repeat rw [String.toList_ofList]
    decide +kernel
  · unfold remarkedConfig newConfig gfsConfigInclude
    repeat rw [String.toList_ofList]
    decide +kernel
  · rw [writeUserConfig_mainSeed, remark]
    unfold remarkedConfig newConfig gfsConfigInclude
    repeat rw [String.toList_ofList]
    decide +kernel
  · decide +kernel
  · rw [writePackedRefs, readToString_latin (by simp [latinRefs])]
    decide +kernel

end Gfs.Mount.Seeding
