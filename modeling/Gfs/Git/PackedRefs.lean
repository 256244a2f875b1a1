import Gfs.Git.Config
import Gfs.Types.Oid

/-! Git's reading of a `packed-refs` file: a header of traits or none, then a line for each ref, of
its object id, a space of any kind and its name, and a line behind it with the id it peels to, if
any.
-/

namespace Gfs.Git.PackedRefs

open Gfs.Types
open Gfs.Git.Config (isSpace)

/-- A ref, its ids in the digits the file has. -/
structure Record where
  name : Bytes
  target : Bytes
  peeled : Option Bytes
  deriving DecidableEq, Repr

/-- A ref as it is written, with what stands between its id and its name. -/
structure Line where
  separator : UInt8
  record : Record
  deriving DecidableEq, Repr

def isHexDigit (b : UInt8) : Bool :=
  48 ≤ b && b ≤ 57 || 97 ≤ b && b ≤ 102 || 65 ≤ b && b ≤ 70

/-- The digits of a whole object id. -/
def isHex (algorithm : HashAlgorithm) (digits : Bytes) : Bool :=
  digits.length = algorithm.hexLen && digits.all isHexDigit

/-- `refs/heads/` -/
def headsPrefix : Bytes :=
  [114, 101, 102, 115, 47, 104, 101, 97, 100, 115, 47]

/-- Whether the ref is a local branch. -/
def Record.isHead (record : Record) : Bool :=
  headsPrefix.isPrefixOf record.name

-- Reading

/-- The peeled id behind a ref, if there is one. -/
def readPeeled (algorithm : HashAlgorithm) : Bytes → Option (Option Bytes × Bytes)
  | 94 :: rest =>
      match rest.drop algorithm.hexLen with
      | 10 :: rest' =>
          if isHex algorithm (rest.take algorithm.hexLen) then
            some (some (rest.take algorithm.hexLen), rest')
          else none
      | _ => none
  | bytes => some (none, bytes)

/-- A ref, and what stands behind it. -/
def readLine (algorithm : HashAlgorithm) (bytes : Bytes) : Option (Line × Bytes) :=
  match bytes.drop algorithm.hexLen with
  | separator :: rest =>
      match rest.dropWhile (· ≠ 10) with
      | _ :: behind =>
          if isHex algorithm (bytes.take algorithm.hexLen) ∧ isSpace separator then do
            let (peeled, behind) ← readPeeled algorithm behind
            return (⟨separator, rest.takeWhile (· ≠ 10), bytes.take algorithm.hexLen, peeled⟩,
              behind)
          else none
      | [] => none
  | [] => none

/-- All refs, of a file that is not longer than the first argument says. -/
def readLines (algorithm : HashAlgorithm) : Nat → Bytes → Option (List Line)
  | _, [] => some []
  | 0, _ => none
  | most + 1, bytes => do
      let (line, rest) ← readLine algorithm bytes
      let lines ← readLines algorithm most rest
      return line :: lines

/-- `# pack-refs with:` -/
def traits : Bytes :=
  [35, 32, 112, 97, 99, 107, 45, 114, 101, 102, 115, 32, 119, 105, 116, 104, 58]

/-- A file less its header. -/
def body (bytes : Bytes) : Option Bytes :=
  if bytes.head? = some 35 then
    match bytes.dropWhile (· ≠ 10) with
    | _ :: rest => if traits.isPrefixOf bytes then some rest else none
    | [] => none
  else some bytes

/-- The refs of a file, in its order, if Git accepts it. -/
def read (algorithm : HashAlgorithm) (bytes : Bytes) : Option (List Line) :=
  (body bytes).bind fun bytes => readLines algorithm bytes.length bytes

-- Writing

def layoutPeeled : Option Bytes → Bytes
  | some peeled => 94 :: peeled ++ [10]
  | none => []

/-- A ref as it stands in a file. -/
def Line.layout (line : Line) : Bytes :=
  line.record.target ++ line.separator :: line.record.name ++ 10
    :: layoutPeeled line.record.peeled

/-- What a file can hold of a ref. -/
structure Line.Fits (algorithm : HashAlgorithm) (line : Line) : Prop where
  target : isHex algorithm line.record.target = true
  separator : isSpace line.separator = true
  name : 10 ∉ line.record.name
  peeled : ∀ peeled ∈ line.record.peeled, isHex algorithm peeled = true

theorem hexLen_pos (algorithm : HashAlgorithm) : 0 < algorithm.hexLen := by
  cases algorithm <;> decide

variable {algorithm : HashAlgorithm}

theorem length_of_isHex {digits : Bytes}
    (hex : isHex algorithm digits = true)
    : digits.length = algorithm.hexLen :=
  of_decide_eq_true (Bool.and_eq_true_iff.mp hex).1

theorem not_caret_of_isHex {digits : Bytes}
    (hex : isHex algorithm digits = true) (rest : Bytes)
    : ∀ tail, digits ++ rest ≠ 94 :: tail := by
  intro tail same
  have long := length_of_isHex hex
  have some_ := hexLen_pos algorithm
  cases digits with
  | nil => exact absurd long (by simp; omega)
  | cons first digits =>
      injection same with caret
      subst caret
      exact absurd (List.all_eq_true.mp (Bool.and_eq_true_iff.mp hex).2 94 List.mem_cons_self)
        (by decide)

variable {rest bytes : Bytes} {lines : List Line}

theorem readPeeled_layout {peeled : Option Bytes} (fits : ∀ id ∈ peeled, isHex algorithm id = true)
    (next : ∀ tail, rest ≠ 94 :: tail)
    : readPeeled algorithm (layoutPeeled peeled ++ rest) = some (peeled, rest) := by
  cases peeled with
  | none => exact readPeeled.eq_2 algorithm rest next
  | some id =>
      have hex := fits id rfl
      have long := length_of_isHex hex
      have split : layoutPeeled (some id) ++ rest = 94 :: (id ++ 10 :: rest) := by
        simp [layoutPeeled]
      rw [split, readPeeled, List.drop_left' long, List.take_left' long]
      exact if_pos hex

theorem layout_of_readPeeled {peeled : Option Bytes}
    (found : readPeeled algorithm bytes = some (peeled, rest))
    : bytes = layoutPeeled peeled ++ rest ∧ ∀ id ∈ peeled, isHex algorithm id = true := by
  rw [readPeeled.eq_def] at found
  split at found
  · rename_i bytes
    split at found
    · rename_i behind dropped
      split_ifs at found with hex
      cases found
      refine ⟨?_, fun id same => by rw [← Option.some.inj same]; exact hex⟩
      conv_lhs => rw [← List.take_append_drop algorithm.hexLen bytes, dropped]
      simp [layoutPeeled]
    · cases found
  · cases found
    exact ⟨rfl, fun id none_ => nomatch none_⟩

theorem readLine_layout {line : Line} (fits : line.Fits algorithm)
    (next : ∀ tail, rest ≠ 94 :: tail)
    : readLine algorithm (line.layout ++ rest) = some (line, rest) := by
  obtain ⟨separator, name, target, peeled⟩ := line
  have long := length_of_isHex fits.target
  have split
      : Line.layout ⟨separator, name, target, peeled⟩ ++ rest
        = target ++ separator :: (name ++ 10 :: (layoutPeeled peeled ++ rest)) := by
    simp [Line.layout]
  have clean : ∀ b ∈ name, decide (b ≠ 10) = true := fun b member =>
    decide_eq_true fun same => fits.name (same ▸ member)
  have taken
      : (name ++ 10 :: (layoutPeeled peeled ++ rest)).takeWhile (· ≠ 10) = name := by
    rw [List.takeWhile_append_of_pos clean]
    simp
  have dropped
      : (name ++ 10 :: (layoutPeeled peeled ++ rest)).dropWhile (· ≠ 10)
        = 10 :: (layoutPeeled peeled ++ rest) := by
    rw [List.dropWhile_append_of_pos clean]
    simp
  rw [split, readLine, List.drop_left' long, List.take_left' long]
  simp only [dropped, taken, fits.target, fits.separator, and_self, if_true,
    readPeeled_layout fits.peeled next]
  rfl

theorem layout_of_readLine {line : Line} (found : readLine algorithm bytes = some (line, rest))
    : bytes = line.layout ++ rest ∧ line.Fits algorithm := by
  rw [readLine] at found
  split at found
  · rename_i separator behindId dropped
    split at found
    · rename_i feed behind ended
      split_ifs at found with good
      simp only [Option.bind_eq_bind, Option.bind_eq_some_iff, Option.pure_def,
        Option.some.injEq, Prod.exists, Prod.mk.injEq] at found
      obtain ⟨peeled, behind', readBehind, rfl, rfl⟩ := found
      obtain ⟨rfl, hex⟩ := layout_of_readPeeled readBehind
      have same : feed = 10 := by
        have stops := List.head?_dropWhile_not (fun b : UInt8 => decide (b ≠ 10)) behindId
        rw [ended] at stops
        simpa using stops
      subst same
      refine ⟨?_, good.1, good.2, fun inside => ?_, hex⟩
      · conv_lhs =>
          rw [← List.take_append_drop algorithm.hexLen bytes, dropped,
            ← List.takeWhile_append_dropWhile (p := fun b : UInt8 => decide (b ≠ 10))
              (l := behindId),
            ended]
        simp [Line.layout]
      · have other := List.mem_takeWhile_imp (p := fun b : UInt8 => decide (b ≠ 10)) inside
        exact of_decide_eq_true other rfl
    · cases found
  · cases found

theorem length_layout_pos (line : Line) : 0 < line.layout.length := by
  rw [Line.layout, List.length_append, List.length_cons]
  omega

theorem readLines_layout (fits : ∀ line ∈ lines, line.Fits algorithm) {most : Nat}
    (enough : (lines.flatMap Line.layout).length ≤ most)
    : readLines algorithm most (lines.flatMap Line.layout) = some lines := by
  induction lines generalizing most with
  | nil => rw [List.flatMap_nil, readLines]
  | cons line lines ih =>
      obtain ⟨here, later⟩ := List.forall_mem_cons.mp fits
      rw [List.flatMap_cons, List.length_append] at enough
      have some_ := length_layout_pos line
      obtain ⟨most, rfl⟩ : ∃ less, most = less + 1 := ⟨most - 1, by omega⟩
      have next : ∀ tail, lines.flatMap Line.layout ≠ 94 :: tail := by
        cases lines with
        | nil => simp
        | cons second lines =>
            simp only [List.flatMap_cons, Line.layout, List.append_assoc]
            exact not_caret_of_isHex (later second List.mem_cons_self).target _
      have others : readLines algorithm most (lines.flatMap Line.layout) = some lines :=
        ih later (by omega)
      rw [List.flatMap_cons, readLines.eq_3, readLine_layout here next]
      · simp only [Option.bind_eq_bind, Option.bind_some, others]
        rfl
      · intro nothing
        rw [(List.append_eq_nil_iff.mp nothing).1] at some_
        exact absurd some_ (Nat.lt_irrefl 0)

theorem layout_of_readLines {most : Nat} (found : readLines algorithm most bytes = some lines)
    : bytes = lines.flatMap Line.layout ∧ ∀ line ∈ lines, line.Fits algorithm := by
  fun_induction readLines algorithm most bytes generalizing lines with
  | case1 =>
      cases found
      exact ⟨rfl, fun _ member => nomatch member⟩
  | case2 => cases found
  | case3 most bytes nonempty ih =>
      simp only [Option.bind_eq_bind, Option.bind_eq_some_iff, Option.pure_def,
        Option.some.injEq, Prod.exists] at found
      obtain ⟨line, rest, first, lines, others, rfl⟩ := found
      obtain ⟨rfl, here⟩ := layout_of_readLine first
      obtain ⟨rfl, later⟩ := ih _ others
      exact ⟨rfl, List.forall_mem_cons.mpr ⟨here, later⟩⟩

theorem read_layout (fits : ∀ line ∈ lines, line.Fits algorithm) {more : Bytes} (clean : 10 ∉ more)
    : read algorithm (traits ++ more ++ 10 :: lines.flatMap Line.layout) = some lines := by
  have whole : ∀ b ∈ traits ++ more, decide (b ≠ 10) = true := by
    intro b member
    rcases List.mem_append.mp member with inside | inside
    · exact (by decide +kernel : ∀ b ∈ traits, decide (b ≠ 10) = true) b inside
    · exact decide_eq_true fun same => clean (same ▸ inside)
  have header
      : body (traits ++ more ++ 10 :: lines.flatMap Line.layout)
        = some (lines.flatMap Line.layout) := by
    have hash : (traits ++ more ++ 10 :: lines.flatMap Line.layout).head? = some 35 := rfl
    rw [body, if_pos hash, List.dropWhile_append_of_pos whole]
    simp
  rw [read, header, Option.bind_some, readLines_layout fits (Nat.le_refl _)]

/-- A file that Git accepts is a header, if any, and its refs, each as its line is written. -/
theorem layout_of_read (found : read algorithm bytes = some lines)
    : ∃ header,
        (header = [] ∨ ∃ more, header = traits ++ more ++ [10] ∧ 10 ∉ more)
        ∧ bytes = header ++ lines.flatMap Line.layout
        ∧ ∀ line ∈ lines, line.Fits algorithm := by
  obtain ⟨rest, headed, all⟩ := Option.bind_eq_some_iff.mp found
  obtain ⟨rfl, fits⟩ := layout_of_readLines all
  rw [body] at headed
  split at headed
  · split at headed
    · rename_i feed behind ended
      split_ifs at headed with front
      cases headed
      obtain ⟨tail, rfl⟩ := List.isPrefixOf_iff_prefix.mp front
      rw [List.dropWhile_append_of_pos
        (by decide +kernel : ∀ b ∈ traits, decide (b ≠ 10) = true)] at ended
      have stops := List.head?_dropWhile_not (fun b : UInt8 => decide (b ≠ 10)) tail
      rw [ended] at stops
      have same : feed = 10 := by simpa using stops
      subst same
      have split :=
        List.takeWhile_append_dropWhile (p := fun b : UInt8 => decide (b ≠ 10)) (l := tail)
      rw [ended] at split
      refine ⟨traits ++ tail.takeWhile (fun b => decide (b ≠ 10)) ++ [10],
        .inr ⟨_, rfl, fun inside => ?_⟩, ?_, fits⟩
      · have other := List.mem_takeWhile_imp (p := fun b : UInt8 => decide (b ≠ 10)) inside
        exact of_decide_eq_true other rfl
      · conv_lhs => rw [← split]
        simp
    · cases headed
  · cases headed
    exact ⟨[], .inl rfl, rfl, fits⟩

end Gfs.Git.PackedRefs
