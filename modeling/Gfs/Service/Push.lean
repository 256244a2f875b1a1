import Gfs.Types.Path
import Gfs.Types.Revision
import Gfs.Types.Ids

/-! The push boundary: pkt-line framing (`gfs-service/src/gateway/pkt.rs`), the commands a
push may carry (`gateway/receive_pack.rs`), and what confines a subject to its own branches.
-/

namespace Gfs.Service

open Gfs.Types

-- Packets

/-- Largest pkt-line Git will emit, including the four-byte length prefix. -/
def maxPktLine : Nat := 65520

/-- The most ref updates one push may carry. -/
def maxCommands : Nat := 1000

/-- One decoded packet. -/
inductive Packet where
  /-- A data packet's payload, without the length prefix. -/
  | data (payload : Bytes)
  | flush
  | delim
  | responseEnd
  deriving DecidableEq, Repr

/-- The value of an ASCII hexadecimal digit. -/
def hexDigit (byte : UInt8) : Option Nat :=
  let value := byte.toNat
  if 48 ≤ value ∧ value ≤ 57 then some (value - 48)
  else if 65 ≤ value ∧ value ≤ 70 then some (value - 55)
  else if 97 ≤ value ∧ value ≤ 102 then some (value - 87)
  else none

/-- `usize::from_str_radix(_, 16)` of a four-byte header. A leading plus sign is accepted. -/
def parseHeader (header : Bytes) : Option Nat :=
  let digits := if header.head? = some 43 then header.tail else header
  if digits = [] then none
  else
    digits.foldl
      (fun value byte => value.bind (fun value => (hexDigit byte).map (value * 16 + ·)))
      (some 0)

def malformed : GfsError := .invalid "malformed pkt-line framing"
def truncated : GfsError := .invalid "truncated pkt-line"

/-- Decode the packet at the head of the data, with the bytes consumed. `none` means that the
data ends inside the packet.
-/
def decodeOne (data : Bytes) : Except GfsError (Option (Packet × Nat)) :=
  match parseHeader (data.take 4) with
  | none => .error malformed
  | some 0 => .ok (some (.flush, 4))
  | some 1 => .ok (some (.delim, 4))
  | some 2 => .ok (some (.responseEnd, 4))
  | some 3 => .error malformed
  | some n =>
      if n > maxPktLine then .error malformed
      else if n > data.length then .ok none
      else .ok (some (.data ((data.take n).drop 4), n))

/-- Decode the pkt-lines that precede the first flush packet. Each packet takes at least four
bytes, so the length of the data bounds the packets left.
-/
def decodeFrom : Nat → Bytes → Except GfsError (List Packet)
  | 0, _ => .ok []
  | bound + 1, data =>
      if data.length < 4 then .ok []
      else
        match decodeOne data with
        | .error refusal => .error refusal
        | .ok none => .error truncated
        | .ok (some (packet, consumed)) =>
            if packet = .flush then .ok [packet]
            else (decodeFrom bound (data.drop consumed)).map (packet :: ·)

def decodeUntilFlush (data : Bytes) : Except GfsError (List Packet) :=
  decodeFrom data.length data

-- Commands

def isHexOid (text : Text) : Bool :=
  (text.len = 40 || text.len = 64)
  && text.all (fun c => c.toNat < 128 && (hexDigit c.toNat.toUInt8).isSome)

/-- The ref a packet asks to update, when it is a command: the line before the first NUL is
two object ids and a name.
-/
def commandRef (packet : Packet) : Option Text :=
  match packet with
  | .data payload =>
      let text := (Text.fromUtf8Lossy (payload.takeWhile (· ≠ 0))).rdropWhile (· = '\n')
      match Text.threeFields text with
      | some (old, new, refname) =>
          if isHexOid old && isHexOid new then some refname else none
      | none => none
  | _ => none

/-- The refs a push asks to update. -/
def commandRefs (packets : List Packet) : List Text :=
  packets.filterMap commandRef

/-- Whether a push may update a ref: a branch, or a ref of the caller's own subtree. -/
def isPushable (workRoot refname : Text) : Bool :=
  ("refs/heads/".toList.isPrefixOf refname
    && isValidBranchName (refname.drop "refs/heads/".toList.length))
  || (workRoot ++ ['/']).isPrefixOf refname

def tooManyCommands : GfsError :=
  ⟨.resourceLimit, "a push may update at most 1000 refs".toList⟩

def outsidePush (workRoot : Text) : GfsError where
  code := .permissionDenied
  message :=
    "push may only update refs/heads/* or ".toList ++ workRoot
    ++ "/*; tags and everything else follow upstream and are written by fetch, not by push".toList

/-- The check of the packets that follow some commands. -/
def validatePackets (workRoot : Text) : Nat → List Packet → Except GfsError Unit
  | _, [] => .ok ()
  | commands, packet :: rest =>
      match commandRef packet with
      | none => validatePackets workRoot commands rest
      | some refname =>
          if commands + 1 > maxCommands then .error tooManyCommands
          else if !isPushable workRoot refname then .error (outsidePush workRoot)
          else validatePackets workRoot (commands + 1) rest

/-- Refuse a push whose ref updates leave the branch namespace and the caller's subtree. -/
def validateCommands (workRoot : Text) (request : Bytes) : Except GfsError Unit :=
  match decodeUntilFlush request with
  | .error refusal => .error refusal
  | .ok packets => validatePackets workRoot 0 packets

-- Git's ref names

/-- The rules `git check-ref-format` documents: slash-separated components, none empty, none
that begins with a dot or ends with `.lock`; at least one slash; no two dots in a row, no
control character, space, tilde, caret, colon, question mark, asterisk, bracket or backslash;
no dot at the end, no `@{` and not `@` alone.
-/
def checkRefFormat (name : Text) : Bool :=
  (name.splitOn '/').all (fun part =>
    part ≠ [] && part.head? ≠ some '.' && !".lock".toList.isSuffixOf part)
  && name.contains '/'
  && !name.hasPair '.' '.'
  && name.all (fun c =>
    !(c.toNat < 32 || c.toNat = 127 || " ~^:?*[\\".toList.contains c))
  && name.getLast? ≠ some '.'
  && !name.hasPair '@' '{'
  && name ≠ ['@']

-- Isolation

/-- A ref lies inside a subject's work root. -/
def InsideRoot (subject : SubjectId) (refname : Text) : Prop :=
  workRefRoot subject.1 ++ ['/'] <+: refname

/-- Nothing one subject may push, create or commit to lies inside another's work root, and
Git accepts every ref built for the subject.
-/
structure Isolated (accepts : Text → Bool) (subject other : SubjectId) : Prop where
  roots : ¬workRefRoot other.1 ++ ['/'] <+: workRefRoot subject.1 ++ ['/']
  pushes
    : ∀ request packets,
        decodeUntilFlush request = .ok packets
        → validateCommands (workRefRoot subject.1) request = .ok ()
        → ∀ refname ∈ commandRefs packets, ¬InsideRoot other refname
  branches
    : ∀ branch,
        isValidBranchName branch = true → ¬InsideRoot other (workRef subject.1 branch)
  accepted
    : ∀ branch, isValidBranchName branch = true → accepts (workRef subject.1 branch) = true

/-- A name spells a text when it has the text's ref-safe characters, and one underscore for
each longest run of others.
-/
inductive Spells : Text → Text → Prop where
  | done : Spells [] []
  | keep {c : Char} {name text : Text} (safe : isRefSafe c = true) (rest : Spells name text)
      : Spells (c :: name) (c :: text)
  | run {unsafe_ name text : Text} (nonempty : unsafe_ ≠ [])
      (folded : ∀ c ∈ unsafe_, isRefSafe c = false)
      (longest : ∀ c ∈ text.head?, isRefSafe c = true) (rest : Spells name text)
      : Spells ('_' :: name) (unsafe_ ++ text)

/-- A subject goes by an owner: some name spells it, and the owner is that name without its
outer underscores and then dots, or `anonymous` when nothing is left.
-/
def GoesBy (subject : SubjectId) (owner : Text) : Prop :=
  ∃ name, Spells name subject.1 ∧ owner = ownerOf name

/-- The owner can be a component of a ref: no two dots in a row, and no final `.lock`. -/
def IsComponent (owner : Text) : Prop :=
  owner.hasPair '.' '.' = false ∧ ".lock".toList.isSuffixOf owner = false

/-- Two subjects are told apart, and the first can own a ref: they go by different owners, the
first by one that can be a component.
-/
def Apart (subject other : SubjectId) : Prop :=
  ∀ owner, GoesBy subject owner → IsComponent owner ∧ ¬GoesBy other owner

-- Owners

/-- A ref-safe character is a letter, a digit, a dot, a hyphen or an underscore: none of
Git's special characters.
-/
theorem isRefSafe_bounds {c : Char} (safe : isRefSafe c = true)
    : 45 ≤ c.toNat ∧ c.toNat ≤ 122 ∧ c ≠ '/' ∧ c ≠ '@' ∧ c ≠ '{'
      ∧ " ~^:?*[\\".toList.contains c = false := by
  have range : 45 ≤ c.toNat ∧ c.toNat ≤ 122 := by
    simp only [isRefSafe, Char.isAlphanum, Char.isAlpha, Char.isUpper, Char.isLower,
      Char.isDigit, Bool.or_eq_true, Bool.and_eq_true, decide_eq_true_eq,
      UInt32.le_iff_toNat_le, ge_iff_le] at safe
    change
      ((((((65 ≤ c.toNat ∧ c.toNat ≤ 90) ∨ (97 ≤ c.toNat ∧ c.toNat ≤ 122))
        ∨ (48 ≤ c.toNat ∧ c.toNat ≤ 57)) ∨ c = '.') ∨ c = '-') ∨ c = '_') at safe
    rcases safe with ((((upper | lower) | digit) | rfl) | rfl) | rfl
    · omega
    · omega
    · omega
    · decide
    · decide
    · decide
  have apart : ∀ other : Char, isRefSafe other = false → c ≠ other := by
    intro other unsafe_ same
    rw [same, unsafe_] at safe
    cases safe
  refine ⟨range.1, range.2, apart _ (by decide), apart _ (by decide), apart _ (by decide), ?_⟩
  rw [Bool.eq_false_iff]
  intro listed
  have member := List.contains_iff_mem.mp listed
  have special : " ~^:?*[\\".toList.all (fun other => !isRefSafe other) = true := by decide
  exact apart c (by simpa using List.all_eq_true.mp special c member) rfl

theorem foldSubject_safe (lastWasSep : Bool) (subject : Text)
    : ∀ c ∈ foldSubject lastWasSep subject, isRefSafe c = true := by
  induction subject generalizing lastWasSep with
  | nil => simp [foldSubject]
  | cons head rest ih =>
      intro c member
      rw [foldSubject] at member
      split at member
      · rename_i safe
        cases List.mem_cons.mp member with
        | inl same => exact same ▸ safe
        | inr later => exact ih false c later
      · split at member
        · exact ih true c member
        · cases List.mem_cons.mp member with
          | inl same => exact same ▸ by decide
          | inr later => exact ih true c later

theorem mem_trimMatches {text : Text} {trimmed c : Char} (member : c ∈ text.trimMatches trimmed)
    : c ∈ text :=
  (List.dropWhile_suffix _).subset ((List.rdropWhile_prefix _ _).subset member)

theorem ownerOf_safe {folded : Text} (safe : ∀ c ∈ folded, isRefSafe c = true)
    : ∀ c ∈ ownerOf folded, isRefSafe c = true := by
  intro c member
  rw [ownerOf] at member
  split at member
  · have plain : "anonymous".toList.all isRefSafe = true := by decide
    exact List.all_eq_true.mp plain c member
  · exact safe c (mem_trimMatches (mem_trimMatches member))

/-- What is trimmed of a character neither begins nor ends with it. -/
theorem trimMatches_ends (text : Text) (c : Char)
    : (text.trimMatches c).head? ≠ some c ∧ (text.trimMatches c).getLast? ≠ some c := by
  constructor
  · intro begins
    have prefix_ := List.rdropWhile_prefix (· = c) (text.dropWhile (· = c))
    obtain ⟨tail, shape⟩ := prefix_
    have first := List.head?_dropWhile_not (· = c) text
    have same : (text.dropWhile (· = c)).head? = some c := by
      rw [← shape]
      rw [Text.trimMatches] at begins
      rw [List.head?_append, begins]
      rfl
    rw [same] at first
    simp at first
  · intro ends
    rw [Text.trimMatches] at ends
    have nonempty : (text.dropWhile (· = c)).rdropWhile (· = c) ≠ [] := by
      intro empty
      rw [empty] at ends
      cases ends
    have last := List.rdropWhile_last_not (· = c) (text.dropWhile (· = c)) nonempty
    rw [List.getLast?_eq_some_getLast nonempty] at ends
    exact last (by simpa using Option.some.inj ends)

theorem ownerOf_ends (folded : Text)
    : ownerOf folded ≠ [] ∧ (ownerOf folded).head? ≠ some '.'
      ∧ (ownerOf folded).getLast? ≠ some '.' := by
  simp only [ownerOf]
  split
  · decide
  · rename_i nonempty
    exact ⟨nonempty, trimMatches_ends _ _⟩

/-- The owner of a subject's work root. -/
def owner (subject : SubjectId) : Text :=
  ownerOf (foldSubject false subject.1)

theorem owner_safe (subject : SubjectId) : ∀ c ∈ owner subject, isRefSafe c = true :=
  ownerOf_safe (foldSubject_safe false subject.1)

theorem slash_notMem_owner (subject : SubjectId) : '/' ∉ owner subject :=
  fun member => (isRefSafe_bounds (owner_safe subject _ member)).2.2.1 rfl

theorem workRefRoot_eq (subject : SubjectId)
    : workRefRoot subject.1 = "refs/gfs/work/".toList ++ owner subject := by
  rw [workRefRoot, owner]
  rfl

-- Spelling

theorem foldSubject_run {unsafe_ text : Text} (folded : ∀ c ∈ unsafe_, isRefSafe c = false)
    (longest : ∀ c ∈ text.head?, isRefSafe c = true)
    : foldSubject true (unsafe_ ++ text) = foldSubject false text := by
  induction unsafe_ with
  | nil =>
      cases text with
      | nil => rfl
      | cons c rest => simp [foldSubject, longest c (by simp)]
  | cons c unsafe_ ih =>
      have here := folded c List.mem_cons_self
      simp only [List.cons_append, foldSubject, here, Bool.false_eq_true, if_false, if_true]
      exact ih (fun other member => folded other (List.mem_cons_of_mem _ member))

/-- A text has a spelling, and only one: what folding makes of it. -/
theorem spells_iff {name text : Text} : Spells name text ↔ name = foldSubject false text := by
  constructor
  · intro spells
    induction spells with
    | done => rfl
    | keep safe _ ih => simp [foldSubject, safe, ih]
    | @run unsafe_ name text nonempty folded longest _ ih =>
        cases unsafe_ with
        | nil => exact absurd rfl nonempty
        | cons c rest =>
            have here := folded c List.mem_cons_self
            simp only [List.cons_append, foldSubject, here, Bool.false_eq_true, if_false]
            rw [foldSubject_run (fun other member => folded other (List.mem_cons_of_mem _ member))
              longest, ih]
  · rintro rfl
    -- A run already begun goes on with the text, or ends at it.
    have generally : Spells (foldSubject false text) text
        ∧ ∀ unsafe_ : Text, unsafe_ ≠ [] → (∀ c ∈ unsafe_, isRefSafe c = false)
            → Spells ('_' :: foldSubject true text) (unsafe_ ++ text) := by
      induction text with
      | nil =>
          exact ⟨.done, fun unsafe_ nonempty folded =>
            .run nonempty folded (by simp) .done⟩
      | cons c rest ih =>
          cases safe : isRefSafe c with
          | true =>
              have kept : Spells (c :: foldSubject false rest) (c :: rest) := .keep safe ih.1
              refine ⟨by simpa [foldSubject, safe] using kept, fun unsafe_ nonempty folded => ?_⟩
              simp only [foldSubject, safe, if_true]
              exact .run nonempty folded (by simpa using safe) kept
          | false =>
              refine ⟨?_, fun unsafe_ nonempty folded => ?_⟩
              · simp only [foldSubject, safe, Bool.false_eq_true, if_false]
                exact ih.2 [c] (by simp) (by simpa using safe)
              · simp only [foldSubject, safe, Bool.false_eq_true, if_false, if_true]
                have longer := ih.2 (unsafe_ ++ [c]) (by simp) (by
                  intro other member
                  cases List.mem_append.mp member with
                  | inl before => exact folded other before
                  | inr here => exact List.mem_singleton.mp here ▸ safe)
                simpa using longer
    exact generally.1

variable {subject : SubjectId}

theorem goesBy_iff {name : Text}
    : GoesBy subject name ↔ name = owner subject := by
  constructor
  · rintro ⟨spelled, spells, rfl⟩
    rw [spells_iff.mp spells, owner]
  · rintro rfl
    exact ⟨_, spells_iff.mpr rfl, rfl⟩

theorem apart_iff {other : SubjectId}
    : Apart subject other ↔ IsComponent (owner subject) ∧ owner subject ≠ owner other := by
  simp only [Apart, goesBy_iff]
  constructor
  · exact fun apart => apart _ rfl
  · rintro apart _ rfl
    exact apart

-- Roots

private theorem takeWhile_slash {before : Text} (clean : '/' ∉ before) (after : Text)
    : (before ++ '/' :: after).takeWhile (· ≠ '/') = before := by
  rw [List.takeWhile_append_of_pos]
  · simp
  · intro c member
    simpa using fun same : c = '/' => clean (same ▸ member)

theorem same_owner {other : SubjectId} {text : Text}
    (inside : workRefRoot subject.1 ++ ['/'] <+: text)
    (insideOther : workRefRoot other.1 ++ ['/'] <+: text)
    : owner subject = owner other := by
  obtain ⟨rest, shape⟩ := inside
  obtain ⟨rest', shape'⟩ := insideOther
  rw [← shape', workRefRoot_eq, workRefRoot_eq] at shape
  simp only [List.append_assoc, List.singleton_append, List.append_cancel_left_eq] at shape
  rw [← takeWhile_slash (slash_notMem_owner subject) rest, shape,
    takeWhile_slash (slash_notMem_owner other)]

theorem validatePackets_ok {workRoot : Text} {packets : List Packet} {commands : Nat}
    (accepted : validatePackets workRoot commands packets = .ok ())
    : ∀ refname ∈ commandRefs packets, isPushable workRoot refname = true := by
  induction packets generalizing commands with
  | nil => simp [commandRefs]
  | cons packet rest ih =>
      intro refname member
      rw [commandRefs, List.filterMap_cons] at member
      rw [validatePackets] at accepted
      cases command : commandRef packet with
      | none =>
          rw [command] at accepted member
          exact ih accepted refname member
      | some named =>
          rw [command] at accepted member
          simp only at accepted member
          split at accepted
          · cases accepted
          · split at accepted
            · cases accepted
            · rename_i pushable
              cases List.mem_cons.mp member with
              | inl same => simpa [same] using pushable
              | inr later => exact ih accepted refname later

theorem inside_of_isPushable {other : SubjectId} {refname : Text}
    (pushable : isPushable (workRefRoot subject.1) refname = true)
    (inside : InsideRoot other refname)
    : InsideRoot subject refname := by
  simp only [isPushable, Bool.or_eq_true, Bool.and_eq_true, List.isPrefixOf_iff_prefix] at pushable
  refine pushable.resolve_left ?_
  rintro ⟨branch, _⟩
  obtain ⟨rest, shape⟩ := inside
  obtain ⟨rest', shape'⟩ := branch
  rw [← shape', workRefRoot_eq] at shape
  have third := congrArg (fun text : Text => text[5]?) shape
  simp at third

-- Git's acceptance

theorem workRef_eq (subject : SubjectId) (branch : Text)
    : workRef subject.1 branch
      = "refs/gfs/work".toList ++ '/' :: (owner subject ++ '/' :: branch) := by
  rw [workRef, workRefRoot_eq]
  simp

/-- Git accepts the refs of a subject whose owner can be a component. -/
theorem checkRefFormat_workRef (component : IsComponent (owner subject)) {branch : Text}
    (valid : isValidBranchName branch = true)
    : checkRefFormat (workRef subject.1 branch) = true := by
  obtain ⟨nonempty, first, last⟩ := ownerOf_ends (foldSubject false subject.1)
  have safe := owner_safe subject
  simp only [isValidBranchName] at valid
  split at valid
  · cases valid
  rename_i sized
  split at valid
  · cases valid
  rename_i edges
  split at valid
  · cases valid
  rename_i dotless
  split at valid
  · cases valid
  rename_i pairs
  split at valid
  · cases valid
  rename_i plain
  simp only [Bool.or_eq_true, not_or, Bool.not_eq_true] at pairs
  have branchNonempty : branch ≠ [] := fun empty => sized (.inl empty)
  have noPair : ∀ a b : Char, a ≠ '/' → b ≠ '/' → Text.hasPair a b "refs/gfs/work".toList = false
      → Text.hasPair a b (owner subject) = false → Text.hasPair a b branch = false
      → Text.hasPair a b (workRef subject.1 branch) = false := by
    intro a b notFirst notSecond root here there
    rw [workRef_eq, Text.hasPair_split notFirst.symm notSecond.symm,
      Text.hasPair_split notFirst.symm notSecond.symm, root, here, there]
    rfl
  have noBrace : Text.hasPair '@' '{' (owner subject) = false := by
    have generally : ∀ text : Text, '@' ∉ text → Text.hasPair '@' '{' text = false := by
      intro text
      induction text with
      | nil => exact fun _ => rfl
      | cons head tail ih =>
          intro clean
          simp only [List.mem_cons, not_or] at clean
          cases tail with
          | nil => rfl
          | cons next tail =>
              simp only [Text.hasPair, ih clean.2, Bool.or_false, Bool.and_eq_false_iff,
                decide_eq_false_iff_not]
              exact .inl (Ne.symm clean.1)
    exact generally _ (fun member => (isRefSafe_bounds (safe _ member)).2.2.2.1 rfl)
  simp only [checkRefFormat, Bool.and_eq_true]
  refine ⟨⟨⟨⟨⟨⟨?_, ?_⟩, ?_⟩, ?_⟩, ?_⟩, ?_⟩, ?_⟩
  · rw [workRef_eq, Text.splitOn_append, Text.splitOn_append,
      Text.splitOn_clean (slash_notMem_owner subject), List.all_append, List.all_append,
      Bool.and_eq_true, Bool.and_eq_true]
    refine ⟨by decide, ?_, valid⟩
    simp only [List.all_cons, List.all_nil, Bool.and_true, Bool.and_eq_true, Bool.not_eq_true',
      decide_eq_true_eq]
    exact ⟨⟨nonempty, first⟩, component.2⟩
  · rw [workRef_eq]
    simp
  · rw [noPair '.' '.' (by decide) (by decide) (by decide) component.1 pairs.1.1]
    rfl
  · rw [workRef_eq]
    simp only [List.all_append, List.all_cons, Bool.and_eq_true]
    refine ⟨by decide, by decide, ?_, by decide, ?_⟩
    · rw [List.all_eq_true]
      intro c member
      obtain ⟨low, high, _, _, _, special⟩ := isRefSafe_bounds (safe c member)
      rw [special]
      simp
      omega
    · rw [List.all_eq_true]
      intro c member
      have allowed := fun found => plain (List.any_eq_true.mpr ⟨c, member, found⟩)
      simpa using allowed
  · rw [workRef_eq]
    have ends
        : (("refs/gfs/work".toList ++ '/' :: (owner subject ++ '/' :: branch)) : Text).getLast?
          = branch.getLast? := by
      rw [List.getLast?_append, List.getLast?_cons, List.getLast?_append, List.getLast?_cons]
      cases branch with
      | nil => exact absurd rfl branchNonempty
      | cons head tail => simp [List.getLast?_eq_some_getLast]
    rw [ends]
    simpa using fun dot => dotless (.inl dot)
  · rw [noPair '@' '{' (by decide) (by decide) (by decide) noBrace pairs.1.2]
    rfl
  · rw [workRef_eq]
    simp

theorem isComponent_of_checkRefFormat (accepted : checkRefFormat (workRef subject.1 ['x']) = true)
    : IsComponent (owner subject) := by
  simp only [checkRefFormat, Bool.and_eq_true] at accepted
  obtain ⟨⟨⟨⟨⟨⟨components, _⟩, dots⟩, _⟩, _⟩, _⟩, _⟩ := accepted
  rw [workRef_eq] at components dots
  constructor
  · rw [Text.hasPair_split (by decide) (by decide), Text.hasPair_split (by decide) (by decide)]
      at dots
    simp only [Bool.not_eq_true', Bool.or_eq_false_iff] at dots
    exact dots.2.1
  · rw [Text.splitOn_append, Text.splitOn_append,
      Text.splitOn_clean (slash_notMem_owner subject)] at components
    simp only [List.all_append, List.all_cons, Bool.and_eq_true, Bool.not_eq_true'] at components
    exact components.2.1.1.2

/-- Two subjects are isolated exactly when they are told apart and Git can hold the first's
refs. Git's acceptance is what `git check-ref-format` documents. Witness: owners hold no
slash, so roots are equal or disjoint.
-/
theorem subjects_isolated_iff (accepts : Text → Bool)
    (documented : ∀ name, accepts name = checkRefFormat name) (subject other : SubjectId)
    : Isolated accepts subject other ↔ Apart subject other := by
  rw [apart_iff]
  constructor
  · intro isolated
    refine ⟨?_, fun same => ?_⟩
    · refine isComponent_of_checkRefFormat ?_
      rw [← documented]
      exact isolated.accepted ['x'] (by decide)
    · refine isolated.branches ['x'] (by decide) ⟨['x'], ?_⟩
      rw [workRefRoot_eq, ← same, workRef, workRefRoot_eq]
      simp
  · rintro ⟨component, different⟩
    have outside : ∀ text, InsideRoot subject text → ¬InsideRoot other text :=
      fun _ inside insideOther => different (same_owner inside insideOther)
    constructor
    · exact outside _ (List.prefix_refl _)
    · intro request packets decoded valid refname named inside
      rw [validateCommands, decoded] at valid
      have pushable := validatePackets_ok valid refname named
      exact outside refname (inside_of_isPushable pushable inside) inside
    · intro branch _
      refine outside _ ⟨branch, ?_⟩
      rw [workRef]
      simp
    · intro branch valid
      rw [documented]
      exact checkRefFormat_workRef component valid

/-- Two subjects of letters are isolated. -/
theorem alice_isolated_from_bob
    : Isolated checkRefFormat ⟨"alice".toList, by decide⟩ ⟨"bob".toList, by decide⟩ :=
  (subjects_isolated_iff checkRefFormat (fun _ => rfl) _ _).mpr
    (apart_iff.mpr ⟨⟨by decide, by decide⟩, by decide⟩)

/-- Subjects that differ in a folded character only reach each other's branches. -/
theorem folded_subjects_not_isolated
    : ¬∀ subject other : SubjectId, subject ≠ other → Isolated checkRefFormat subject other := by
  intro isolated
  let subject : SubjectId := ⟨"a b".toList, by decide⟩
  let other : SubjectId := ⟨"a/b".toList, by decide⟩
  refine (isolated subject other (by decide)).branches ['x'] (by decide) ⟨['x'], ?_⟩
  decide

end Gfs.Service
