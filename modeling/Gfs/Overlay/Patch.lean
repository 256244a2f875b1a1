import Gfs.Overlay.Diff

/-! Applying a unified diff gives the new file: the text of a diff reads back as its hunks, which
cover the changes of the script from left to right, and the lines between them are kept.
-/

namespace Gfs.Overlay.Diff

open Gfs.Types
open Gfs.Lib.Scripts

-- Lines

/-- Lines with a newline between each two. -/
def joinLines : List Bytes → Bytes
  | [] => []
  | [line] => line
  | line :: next :: rest => line ++ newline :: joinLines (next :: rest)

theorem splitLines_ne_nil (bytes : Bytes) : splitLines bytes ≠ [] := by
  induction bytes with
  | nil => simp [splitLines]
  | cons b rest ih =>
      simp only [splitLines]
      split
      · simp
      · split
        · simp
        · simp

theorem splitLines_cons_of_ne {b : UInt8} (other : b ≠ newline) (rest : Bytes)
    : ∃ first more, splitLines rest = first :: more
        ∧ splitLines (b :: rest) = (b :: first) :: more := by
  cases split_ : splitLines rest with
  | nil => exact absurd split_ (splitLines_ne_nil rest)
  | cons first more => exact ⟨first, more, rfl, by simp [splitLines, other, split_]⟩

theorem joinLines_splitLines (bytes : Bytes) : joinLines (splitLines bytes) = bytes := by
  induction bytes with
  | nil => rfl
  | cons b rest ih =>
      by_cases line : b = newline
      · obtain ⟨first, more, split_⟩ := List.exists_cons_of_ne_nil (splitLines_ne_nil rest)
        rw [splitLines, if_pos line, split_, joinLines, ← split_, ih, line]
        rfl
      · obtain ⟨first, more, split_, joined⟩ := splitLines_cons_of_ne line rest
        rw [split_] at ih
        rw [joined]
        cases more with
        | nil =>
            rw [joinLines] at ih ⊢
            rw [ih]
        | cons next more =>
            rw [joinLines] at ih ⊢
            rw [← ih]
            rfl

variable {line : Bytes} {parts : List Bytes}

/-- A line does not hold a newline. -/
theorem newline_notMem {bytes : Bytes} (member : line ∈ splitLines bytes)
    : newline ∉ line := by
  induction bytes generalizing line with
  | nil =>
      rw [splitLines, List.mem_singleton] at member
      rw [member]
      exact List.not_mem_nil
  | cons b rest ih =>
      by_cases ends : b = newline
      · rw [splitLines, if_pos ends] at member
        cases List.mem_cons.mp member with
        | inl empty =>
            rw [empty]
            exact List.not_mem_nil
        | inr later => exact ih later
      · obtain ⟨first, more, split_, joined⟩ := splitLines_cons_of_ne ends rest
        rw [joined] at member
        rw [split_] at ih
        cases List.mem_cons.mp member with
        | inl here =>
            rw [here]
            intro inside
            cases List.mem_cons.mp inside with
            | inl same => exact ends same.symm
            | inr tail => exact ih List.mem_cons_self tail
        | inr later => exact ih (List.mem_cons_of_mem _ later)

theorem splitLines_of_notMem (bare : newline ∉ line)
    : splitLines line = [line] := by
  induction line with
  | nil => rfl
  | cons b rest ih =>
      rw [List.mem_cons, not_or] at bare
      rw [splitLines, if_neg (Ne.symm bare.1), ih bare.2]

theorem splitLines_append (bare : newline ∉ line) (rest : Bytes)
    : splitLines (line ++ newline :: rest) = line :: splitLines rest := by
  induction line with
  | nil => simp [splitLines]
  | cons b tail ih =>
      rw [List.mem_cons, not_or] at bare
      rw [List.cons_append, splitLines, if_neg (Ne.symm bare.1), ih bare.2]

theorem splitLines_joinLines (some_ : parts ≠ []) (bare : ∀ line ∈ parts, newline ∉ line)
    : splitLines (joinLines parts) = parts := by
  induction parts with
  | nil => exact absurd rfl some_
  | cons line rest ih =>
      have here := bare line List.mem_cons_self
      cases rest with
      | nil => exact splitLines_of_notMem here
      | cons next rest =>
          rw [joinLines, splitLines_append here,
            ih (List.cons_ne_nil _ _) (fun other member => bare other
              (List.mem_cons_of_mem _ member))]

theorem flatMap_newline (some_ : parts ≠ [])
    : parts.flatMap (· ++ [newline]) = joinLines parts ++ [newline] := by
  induction parts with
  | nil => exact absurd rfl some_
  | cons line rest ih =>
      cases rest with
      | nil => simp [joinLines]
      | cons next rest =>
          rw [List.flatMap_cons, ih (List.cons_ne_nil _ _), joinLines]
          simp

theorem lines_flatMap (bare : ∀ line ∈ parts, newline ∉ line)
    : lines (parts.flatMap (· ++ [newline])) = (parts, true) := by
  by_cases empty : parts = []
  · subst empty
    rfl
  · rw [flatMap_newline empty, lines, if_neg (by simp), if_pos (by simp), List.dropLast_concat,
      splitLines_joinLines empty bare]

theorem fileBytes_mark {complete : Bool} (some_ : parts ≠ [])
    : fileBytes (mark complete parts)
      = joinLines parts ++ if complete then [newline] else [] := by
  induction parts with
  | nil => exact absurd rfl some_
  | cons line rest ih =>
      cases rest with
      | nil => simp [mark, fileBytes, joinLines]
      | cons next rest =>
          specialize ih (List.cons_ne_nil _ _)
          rw [mark, fileBytes, List.flatMap_cons, ← fileBytes, ih, joinLines]
          simp

theorem fileBytes_fileLines (bytes : Bytes) : fileBytes (fileLines bytes) = bytes := by
  rw [fileLines, lines]
  split
  · rename_i empty
    rw [empty]
    rfl
  · rename_i some_
    split
    · rename_i last
      rw [fileBytes_mark (splitLines_ne_nil _), joinLines_splitLines, if_pos rfl]
      exact List.dropLast_append_getLast? newline last
    · rw [fileBytes_mark (splitLines_ne_nil _), joinLines_splitLines]
      simp

theorem newline_notMem_lines {bytes : Bytes} (member : line ∈ (lines bytes).1)
    : newline ∉ line := by
  rw [lines] at member
  split at member
  · cases member
  · split at member
    · exact newline_notMem member
    · exact newline_notMem member

-- Reading a diff back

section Reading

/-- The lines of a diff that show a line and its marker. -/
def showLine (line : FileLine) : List Bytes :=
  line.1 :: if line.2 then [] else [noNewline]

/-- Markers are found where they were put. -/
theorem attach_show {shown : List FileLine} (clear : ∀ line ∈ shown, line.1 ≠ noNewline)
    : attach (shown.flatMap showLine) = shown := by
  induction shown with
  | nil => rfl
  | cons line rest ih =>
      obtain ⟨content, ended⟩ := line
      specialize ih (fun other member => clear other (List.mem_cons_of_mem _ member))
      cases ended with
      | false =>
          rw [List.flatMap_cons, showLine, if_neg Bool.false_ne_true, List.cons_append,
            List.cons_append, List.nil_append, attach, if_pos rfl, ih]
      | true =>
          rw [List.flatMap_cons, showLine, if_pos rfl, List.cons_append, List.nil_append]
          cases rest with
          | nil => rfl
          | cons next rest =>
              rw [List.flatMap_cons, showLine, List.cons_append, attach,
                if_neg (clear next (List.mem_cons_of_mem _ List.mem_cons_self))]
              rw [List.flatMap_cons, showLine, List.cons_append] at ih
              rw [ih]

theorem expect_append (prefix_ rest : Bytes) : expect prefix_ (prefix_ ++ rest) = some rest := by
  rw [expect, if_pos (List.isPrefixOf_iff_prefix.mpr (List.prefix_append _ _)), List.drop_left]

theorem readHeader_header (oldStart oldCount newStart newCount : Nat)
    : readHeader (header oldStart oldCount newStart newCount)
      = some (oldStart, oldCount, newStart, newCount) := by
  have comma (n : Nat) (rest : Bytes)
      : readNumber (decimal n ++ (text "," ++ rest)) = some (n, text "," ++ rest) := by
    rw [show text "," = [44] by decide]
    exact readNumber_decimal n (by decide) rest
  have plus (n : Nat) (rest : Bytes)
      : readNumber (decimal n ++ (text " +" ++ rest)) = some (n, text " +" ++ rest) := by
    rw [show text " +" = [32, 43] by decide]
    exact readNumber_decimal n (by decide) (43 :: rest)
  have close (n : Nat) : readNumber (decimal n ++ text " @@") = some (n, text " @@") := by
    rw [show text " @@" = [32, 64, 64] by decide]
    exact readNumber_decimal n (by decide) [64, 64]
  simp only [readHeader, header, List.append_assoc, expect_append, comma, plus, close,
    Option.bind_eq_bind, Option.bind_some, if_true]

/-- The byte of a marker. -/
def Marker.byte : Marker → UInt8
  | .context => 32
  | .removed => 45
  | .added => 43

/-- The lines of a hunk. -/
def Hunk.lines (hunk : Hunk) : List FileLine :=
  (header hunk.oldStart hunk.oldCount hunk.newStart hunk.newCount, true)
  :: hunk.body.map (fun line => (line.marker.byte :: line.line.1, line.line.2))

theorem header_head (oldStart oldCount newStart newCount : Nat)
    : ∃ rest, header oldStart oldCount newStart newCount = 64 :: rest := by
  have start : text "@@ -" = 64 :: [64, 32, 45] := by decide
  exact ⟨_, by rw [header, start]; rfl⟩

theorem readLines_body (body : List HunkLine) {rest : List FileLine} {hunks : List Hunk}
    (later : readLines rest = some ([], hunks))
    : readLines
        (body.map (fun line => (line.marker.byte :: line.line.1, line.line.2)) ++ rest)
      = some (body, hunks) := by
  induction body with
  | nil => exact later
  | cons line body ih =>
      obtain ⟨marker, content, ended⟩ := line
      rw [List.map_cons, List.cons_append, readLines, ih]
      cases marker with
      | context => rfl
      | removed => rfl
      | added => rfl

theorem readLines_hunks (hunks : List Hunk)
    : readLines (hunks.flatMap Hunk.lines) = some ([], hunks) := by
  induction hunks with
  | nil => rfl
  | cons hunk hunks ih =>
      obtain ⟨rest, starts⟩ :=
        header_head hunk.oldStart hunk.oldCount hunk.newStart hunk.newCount
      rw [List.flatMap_cons, Hunk.lines, List.cons_append, readLines,
        readLines_body hunk.body ih, starts]
      simp only [Option.bind_eq_bind, Option.bind_some, if_true]
      rw [← starts, readHeader_header]
      rfl

variable (oldComplete newComplete : Bool)

/-- An edit as a line of a hunk, before what is left of the script. -/
def hunkLine (edit : Edit Bytes) (rest : List (Edit Bytes)) : HunkLine :=
  match edit with
  | .keep a => ⟨.context, (a, !(rest.isEmpty && !(oldComplete && newComplete)))⟩
  | .remove a => ⟨.removed, (a, !(isLast rest true && !oldComplete))⟩
  | .insert b => ⟨.added, (b, !(isLast rest false && !newComplete))⟩

/-- The first edits of what is left of the script as lines of a hunk. -/
def body : Nat → List (Edit Bytes) → List HunkLine
  | 0, _ => []
  | _, [] => []
  | count + 1, edit :: rest =>
      hunkLine oldComplete newComplete edit rest :: body count rest

/-- The hunk of a range of the script. -/
def hunkOf (script : List (Edit Bytes)) (range : Nat × Nat) : Hunk :=
  let oldStart := (before (script.take range.1)).length
  let newStart := (after (script.take range.1)).length
  let oldCount := (before ((script.take range.2).drop range.1)).length
  let newCount := (after ((script.take range.2).drop range.1)).length
  {
    oldStart := if oldCount = 0 then oldStart else oldStart + 1
    oldCount
    newStart := if newCount = 0 then newStart else newStart + 1
    newCount
    body := body oldComplete newComplete (range.2 - range.1) (script.drop range.1)
  }

variable {oldComplete newComplete}

theorem editLine_eq (edit : Edit Bytes) (rest : List (Edit Bytes))
    : editLine oldComplete newComplete edit rest
      = (showLine
            ((hunkLine oldComplete newComplete edit rest).marker.byte
                :: (hunkLine oldComplete newComplete edit rest).line.1,
              (hunkLine oldComplete newComplete edit rest).line.2)).flatMap (· ++ [newline]) := by
  have shown (content : Bytes) (cut : Bool)
      : content ++ [newline] ++ (if cut then noNewline ++ [newline] else [])
        = (showLine (content, !cut)).flatMap (· ++ [newline]) := by
    cases cut with
    | false => simp [showLine]
    | true => simp [showLine]
  cases edit with
  | keep a => exact shown _ _
  | remove a => exact shown _ _
  | insert b => exact shown _ _

/-- The text of a hunk is that of its lines. -/
theorem hunk_eq (script : List (Edit Bytes)) (range : Nat × Nat)
    : hunk oldComplete newComplete script range
      = ((hunkOf oldComplete newComplete script range).lines.flatMap showLine).flatMap
          (· ++ [newline]) := by
  have lines_
      : ∀ (count : Nat) (rest : List (Edit Bytes)),
          editLines oldComplete newComplete count rest
          = (((body oldComplete newComplete count rest).map
                (fun line => (line.marker.byte :: line.line.1, line.line.2))).flatMap
              showLine).flatMap (· ++ [newline]) := by
    intro count
    induction count with
    | zero => exact fun _ => rfl
    | succ count ih =>
        intro rest
        cases rest with
        | nil => rfl
        | cons edit rest =>
            rw [editLines, body, List.map_cons, List.flatMap_cons, List.flatMap_append,
              editLine_eq, ih]
  rw [hunk, Hunk.lines, List.flatMap_cons, List.flatMap_append, lines_]
  simp only [showLine, if_true, List.flatMap_cons, List.flatMap_nil, List.append_nil]
  rfl

theorem mem_body {count : Nat} {rest : List (Edit Bytes)} {line : HunkLine}
    (member : line ∈ body oldComplete newComplete count rest)
    : line.line.1 ∈ before rest ∨ line.line.1 ∈ after rest := by
  induction count generalizing rest with
  | zero => cases member
  | succ count ih =>
      cases rest with
      | nil => cases member
      | cons edit rest =>
          cases List.mem_cons.mp member with
          | inl here =>
              rw [here]
              cases edit with
              | keep a => exact .inl (by simp [hunkLine, before, Edit.old])
              | remove a => exact .inl (by simp [hunkLine, before, Edit.old])
              | insert b => exact .inr (by simp [hunkLine, after, Edit.new])
          | inr later =>
              have suffix : rest <:+ edit :: rest := List.suffix_cons edit rest
              refine (ih later).imp ?_ ?_
              · exact fun inside => (suffix.sublist.filterMap _).subset inside
              · exact fun inside => (suffix.sublist.filterMap _).subset inside

theorem newline_notMem_header (oldStart oldCount newStart newCount : Nat)
    : newline ∉ header oldStart oldCount newStart newCount := by
  have digits (n : Nat) : newline ∉ decimal n := by
    intro member
    have := isDigit_of_mem_decimal member
    revert this
    decide
  simp only [header, List.mem_append, not_or]
  exact ⟨⟨⟨⟨⟨⟨⟨⟨by decide, digits _⟩, by decide⟩, digits _⟩, by decide⟩, digits _⟩, by decide⟩,
    digits _⟩, by decide⟩

/-- A diff reads back as its hunks. -/
theorem readHunks_unified (old new : Bytes) (context : Nat)
    : readHunks (unified old new context)
      = some
          ((hunkRanges context (myers (lines old).1 (lines new).1)
              (myers (lines old).1 (lines new).1).length 0).map
            (hunkOf (lines old).2 (lines new).2 (myers (lines old).1 (lines new).1))) := by
  have turns := myers_turns (lines old).1 (lines new).1
  have split_
      : unified old new context
        = (hunkRanges context (myers (lines old).1 (lines new).1)
              (myers (lines old).1 (lines new).1).length 0).flatMap
            (hunk (lines old).2 (lines new).2 (myers (lines old).1 (lines new).1)) := rfl
  rw [split_]
  generalize myers (lines old).1 (lines new).1 = script at turns ⊢
  generalize hunkRanges context script script.length 0 = ranges
  have shown
      : ranges.flatMap (hunk (lines old).2 (lines new).2 script)
        = (((ranges.map (hunkOf (lines old).2 (lines new).2 script)).flatMap
              Hunk.lines).flatMap showLine).flatMap (· ++ [newline]) := by
    induction ranges with
    | nil => rfl
    | cons range ranges ih =>
        rw [List.flatMap_cons, ih, hunk_eq, List.map_cons, List.flatMap_cons,
          List.flatMap_append, List.flatMap_append]
  -- Every line of a hunk is its header, or a marker and a line of one of the files.
  have lines_
      : ∀ line
          ∈ (ranges.map (hunkOf (lines old).2 (lines new).2 script)).flatMap Hunk.lines,
          newline ∉ line.1 ∧ line.1 ≠ noNewline := by
    intro line member
    obtain ⟨one, listed, inside⟩ := List.mem_flatMap.mp member
    obtain ⟨range, -, rfl⟩ := List.mem_map.mp listed
    have last : ∃ rest, noNewline = 92 :: rest := ⟨_, rfl⟩
    obtain ⟨rest, last⟩ := last
    cases List.mem_cons.mp inside with
    | inl here =>
        rw [here]
        refine ⟨newline_notMem_header _ _ _ _, ?_⟩
        obtain ⟨more, starts⟩ := header_head
          (hunkOf (lines old).2 (lines new).2 script range).oldStart
          (hunkOf (lines old).2 (lines new).2 script range).oldCount
          (hunkOf (lines old).2 (lines new).2 script range).newStart
          (hunkOf (lines old).2 (lines new).2 script range).newCount
        simp only [starts, last]
        intro same
        exact absurd (List.cons.inj same).1 (by decide)
    | inr within =>
        obtain ⟨found, inBody, rfl⟩ := List.mem_map.mp within
        have suffix := List.drop_sublist range.1 script
        have bare : newline ∉ found.line.1 := by
          rcases mem_body inBody with inOld | inNew
          · have listed : found.line.1 ∈ before script := (suffix.filterMap _).subset inOld
            rw [turns.before] at listed
            exact newline_notMem_lines listed
          · have listed : found.line.1 ∈ after script := (suffix.filterMap _).subset inNew
            rw [turns.after] at listed
            exact newline_notMem_lines listed
        constructor
        · rw [List.mem_cons, not_or]
          refine ⟨?_, bare⟩
          cases found.marker with
          | context => decide
          | removed => decide
          | added => decide
        · simp only [last]
          intro same
          refine absurd (List.cons.inj same).1 ?_
          cases found.marker with
          | context => decide
          | removed => decide
          | added => decide
  rw [readHunks, shown, lines_flatMap, attach_show, readLines_hunks]
  · rfl
  · exact fun line member => (lines_ line member).2
  · intro line member
    obtain ⟨shownLine, listed, inside⟩ := List.mem_flatMap.mp member
    cases List.mem_cons.mp inside with
    | inl here =>
        rw [here]
        exact (lines_ shownLine listed).1
    | inr marker =>
        split at marker
        · cases marker
        · rw [List.mem_singleton.mp marker]
          decide

end Reading

-- Scripts with the ends of their files

section Ends

variable (oldComplete newComplete : Bool)

/-- Every line that is kept ends in a newline in both files, or in neither. -/
def KeptAlike : List (Edit Bytes) → Prop
  | [] => True
  | .keep _ :: rest =>
      (isLast rest true && !oldComplete) = (isLast rest false && !newComplete) ∧ KeptAlike rest
  | .remove _ :: rest => KeptAlike rest
  | .insert _ :: rest => KeptAlike rest

instance KeptAlike.decide : ∀ script, Decidable (KeptAlike oldComplete newComplete script)
  | [] => isTrue trivial
  | .keep _ :: rest =>
      have := KeptAlike.decide rest
      inferInstanceAs (Decidable (_ ∧ _))
  | .remove _ :: rest => KeptAlike.decide rest
  | .insert _ :: rest => KeptAlike.decide rest

/-- What a script makes of the old file: kept lines as they were, added lines as they are. -/
def patched : List (Edit Bytes) → List FileLine
  | [] => []
  | .keep a :: rest => (a, !(isLast rest true && !oldComplete)) :: patched rest
  | .remove _ :: rest => patched rest
  | .insert b :: rest => (b, !(isLast rest false && !newComplete)) :: patched rest

/-- What the first edits of a script make. -/
def patchedBy : Nat → List (Edit Bytes) → List FileLine
  | 0, _ => []
  | _, [] => []
  | count + 1, .keep a :: rest =>
      (a, !(isLast rest true && !oldComplete)) :: patchedBy count rest
  | count + 1, .remove _ :: rest => patchedBy count rest
  | count + 1, .insert b :: rest =>
      (b, !(isLast rest false && !newComplete)) :: patchedBy count rest

variable {oldComplete newComplete}

theorem isLast_old (rest : List (Edit Bytes)) : isLast rest true = (before rest).isEmpty := by
  induction rest with
  | nil => rfl
  | cons edit rest ih =>
      cases edit with
      | keep a => rfl
      | remove a => rfl
      | insert b => exact ih

theorem isLast_new (rest : List (Edit Bytes)) : isLast rest false = (after rest).isEmpty := by
  induction rest with
  | nil => rfl
  | cons edit rest ih =>
      cases edit with
      | keep a => rfl
      | remove a => exact ih
      | insert b => rfl

theorem mark_cons (complete : Bool) (line : Bytes) (rest : List Bytes)
    : mark complete (line :: rest)
      = (line, !(rest.isEmpty && !complete)) :: mark complete rest := by
  rw [mark, Bool.not_and, Bool.not_not]

theorem before_cons (edit : Edit Bytes) (rest : List (Edit Bytes))
    : before (edit :: rest) = edit.old.toList ++ before rest := by
  cases edit with
  | keep a => rfl
  | remove a => rfl
  | insert b => rfl

theorem after_cons (edit : Edit Bytes) (rest : List (Edit Bytes))
    : after (edit :: rest) = edit.new.toList ++ after rest := by
  cases edit with
  | keep a => rfl
  | remove a => rfl
  | insert b => rfl

theorem patched_split (count : Nat) (script : List (Edit Bytes))
    : patched oldComplete newComplete script
      = patchedBy oldComplete newComplete count script
        ++ patched oldComplete newComplete (script.drop count) := by
  induction count generalizing script with
  | zero => rfl
  | succ count ih =>
      cases script with
      | nil => rfl
      | cons edit rest =>
          cases edit with
          | keep a => simp [patched, patchedBy, ih rest]
          | remove a => simp [patched, patchedBy, ih rest]
          | insert b => simp [patched, patchedBy, ih rest]

theorem keptAlike_of_nil {rest : List (Edit Bytes)} (one : before rest = [] ∨ after rest = [])
    : KeptAlike oldComplete newComplete rest := by
  induction rest with
  | nil => trivial
  | cons edit rest ih =>
      rw [before_cons, after_cons] at one
      cases edit with
      | keep a => simp [Edit.old, Edit.new] at one
      | remove a => exact ih (.inr (by simpa [Edit.old, Edit.new] using one))
      | insert b => exact ih (.inl (by simpa [Edit.old, Edit.new] using one))

theorem patched_of_keptAlike {script : List (Edit Bytes)}
    (alike : KeptAlike oldComplete newComplete script)
    : patched oldComplete newComplete script = mark newComplete (after script) := by
  induction script with
  | nil => rfl
  | cons edit rest ih =>
      rw [after_cons]
      cases edit with
      | keep a =>
          rw [patched, alike.1, ih alike.2]
          simp only [Edit.new, Option.toList_some, List.singleton_append]
          rw [mark_cons, isLast_new]
      | remove a => exact ih alike
      | insert b =>
          rw [patched, ih alike]
          simp only [Edit.new, Option.toList_some, List.singleton_append]
          rw [mark_cons, isLast_new]

theorem fileBytes_cons (line : FileLine) (rest : List FileLine)
    : (fileBytes (line :: rest)).length
      = line.1.length + (if line.2 then 1 else 0) + (fileBytes rest).length := by
  rw [fileBytes, List.flatMap_cons, List.length_append, List.length_append, ← fileBytes]
  cases line.2 with
  | false => rfl
  | true => rfl

/-- Where one kept line ends otherwise, the script makes a file a byte longer or shorter. -/
theorem keptAlike_of_patched {script : List (Edit Bytes)}
    (same
      : (fileBytes (patched oldComplete newComplete script)).length
        = (fileBytes (mark newComplete (after script))).length)
    : KeptAlike oldComplete newComplete script := by
  induction script with
  | nil => trivial
  | cons edit rest ih =>
      rw [after_cons] at same
      cases edit with
      | keep a =>
          simp only [patched, Edit.new, Option.toList_some, List.singleton_append] at same
          rw [mark_cons, ← isLast_new, fileBytes_cons, fileBytes_cons] at same
          by_cases ends
            : (isLast rest true && !oldComplete) = (isLast rest false && !newComplete)
          · simp only [ends] at same
            exact ⟨ends, ih (by omega)⟩
          · exfalso
            -- One side has nothing left, so nothing after this line is kept.
            have one : before rest = [] ∨ after rest = [] := by
              rw [isLast_old, isLast_new] at ends
              cases noOld : (before rest).isEmpty with
              | true => exact .inl (List.isEmpty_iff.mp noOld)
              | false =>
                  cases noNew : (after rest).isEmpty with
                  | true => exact .inr (List.isEmpty_iff.mp noNew)
                  | false => simp [noOld, noNew] at ends
            rw [patched_of_keptAlike (keptAlike_of_nil one)] at same
            cases first : (isLast rest true && !oldComplete) with
            | true =>
                cases second : (isLast rest false && !newComplete) with
                | true => exact ends (first.trans second.symm)
                | false =>
                    simp [first, second] at same
            | false =>
                cases second : (isLast rest false && !newComplete) with
                | true => simp [first, second] at same
                | false => exact ends (first.trans second.symm)
      | remove a => exact ih same
      | insert b =>
          simp only [patched, Edit.new, Option.toList_some, List.singleton_append] at same
          rw [mark_cons, ← isLast_new, fileBytes_cons, fileBytes_cons] at same
          exact ih (by omega)

end Ends

-- Applying one hunk

section Body

variable {oldComplete newComplete : Bool}

/-- A kept line that ends alike in both files is shown as it ends. -/
theorem shown_keep {rest : List (Edit Bytes)}
    (ends : (isLast rest true && !oldComplete) = (isLast rest false && !newComplete))
    : (rest.isEmpty && !(oldComplete && newComplete)) = (isLast rest true && !oldComplete) := by
  cases rest with
  | nil =>
      cases oldComplete with
      | false => rfl
      | true =>
          cases newComplete with
          | false => simp [isLast] at ends
          | true => rfl
  | cons edit rest =>
      cases edit with
      | keep a => rfl
      | remove a => rfl
      | insert b =>
          have newSide : isLast (.insert b :: rest) false = false := rfl
          rw [newSide] at ends
          rw [ends]
          rfl

variable {script : List (Edit Bytes)}

/-- A hunk's lines make what their edits make, where they match. -/
theorem applyBody_eq {count : Nat} {made left : List FileLine}
    (applied
      : applyBody (body oldComplete newComplete count script) (mark oldComplete (before script))
        = some (made, left))
    : made = patchedBy oldComplete newComplete count script
      ∧ left = mark oldComplete (before (script.drop count)) := by
  induction count generalizing script made left with
  | zero =>
      cases applied
      exact ⟨rfl, rfl⟩
  | succ count ih =>
      cases script with
      | nil =>
          cases applied
          exact ⟨rfl, rfl⟩
      | cons edit rest =>
          rw [before_cons, body] at applied
          cases edit with
          | keep a =>
              simp only [hunkLine, Edit.old, Option.toList_some, List.singleton_append] at applied
              rw [mark_cons, applyBody] at applied
              split at applied
              · rename_i matched
                obtain ⟨⟨others, after_⟩, later, done⟩ := Option.bind_eq_some_iff.mp applied
                cases done
                obtain ⟨rfl, rfl⟩ := ih later
                rw [← matched, ← isLast_old]
                exact ⟨rfl, rfl⟩
              · cases applied
          | remove a =>
              simp only [hunkLine, Edit.old, Option.toList_some, List.singleton_append] at applied
              rw [mark_cons, applyBody] at applied
              split at applied
              · exact ih applied
              · cases applied
          | insert b =>
              simp only [hunkLine, Edit.old, Option.toList_none, List.nil_append,
                applyBody] at applied
              obtain ⟨⟨others, after_⟩, later, done⟩ := Option.bind_eq_some_iff.mp applied
              cases done
              obtain ⟨rfl, rfl⟩ := ih later
              exact ⟨rfl, rfl⟩

/-- Where kept lines end alike, a hunk's lines match. -/
theorem applyBody_of_keptAlike (alike : KeptAlike oldComplete newComplete script) (count : Nat)
    : applyBody (body oldComplete newComplete count script) (mark oldComplete (before script))
      = some
          (patchedBy oldComplete newComplete count script,
            mark oldComplete (before (script.drop count))) := by
  induction count generalizing script with
  | zero => rfl
  | succ count ih =>
      cases script with
      | nil => rfl
      | cons edit rest =>
          rw [before_cons, body]
          cases edit with
          | keep a =>
              simp only [hunkLine, Edit.old, Option.toList_some, List.singleton_append]
              rw [mark_cons, applyBody, shown_keep alike.1, isLast_old, if_pos rfl, ih alike.2]
              simp [patchedBy, isLast_old]
          | remove a =>
              simp only [hunkLine, Edit.old, Option.toList_some, List.singleton_append]
              rw [mark_cons, applyBody, isLast_old, if_pos rfl,
                ih (show KeptAlike oldComplete newComplete rest from alike)]
              rfl
          | insert b =>
              simp only [hunkLine, Edit.old, Option.toList_none, List.nil_append, applyBody]
              rw [ih (show KeptAlike oldComplete newComplete rest from alike)]
              rfl

theorem count_body (count : Nat) (script : List (Edit Bytes))
    : (body oldComplete newComplete count script).countP (fun line => line.marker ≠ .added)
        = (before (script.take count)).length
      ∧ (body oldComplete newComplete count script).countP (fun line => line.marker ≠ .removed)
        = (after (script.take count)).length := by
  induction count generalizing script with
  | zero => exact ⟨rfl, rfl⟩
  | succ count ih =>
      cases script with
      | nil => exact ⟨rfl, rfl⟩
      | cons edit rest =>
          obtain ⟨old, new⟩ := ih rest
          rw [body, List.take_succ_cons, before_cons, after_cons, List.countP_cons,
            List.countP_cons, old, new]
          cases edit with
          | keep a => simp [hunkLine, Edit.old, Edit.new]
          | remove a => simp [hunkLine, Edit.old, Edit.new]
          | insert b => simp [hunkLine, Edit.old, Edit.new]

/-- Lines that are kept before the first change are copied. -/
theorem copy_keeps (oldComplete newComplete : Bool) {count : Nat} (long : count ≤ script.length)
    (keeps : ∀ edit ∈ script.take count, isKeep edit = true)
    : count ≤ (mark oldComplete (before script)).length
      ∧ (mark oldComplete (before script)).take count
        = patchedBy oldComplete newComplete count script
      ∧ (mark oldComplete (before script)).drop count
        = mark oldComplete (before (script.drop count))
      ∧ (before (script.take count)).length = count
      ∧ (after (script.take count)).length = count := by
  induction count generalizing script with
  | zero => exact ⟨Nat.zero_le _, rfl, rfl, rfl, rfl⟩
  | succ count ih =>
      cases script with
      | nil => simp at long
      | cons edit rest =>
          rw [List.take_succ_cons] at keeps ⊢
          cases edit with
          | keep a =>
              obtain ⟨enough, copied, left, old, new⟩ := ih (Nat.le_of_succ_le_succ long)
                (fun other member => keeps other (List.mem_cons_of_mem _ member))
              rw [before_cons, before_cons, after_cons]
              simp only [Edit.old, Edit.new, Option.toList_some, List.singleton_append,
                List.length_cons, old, new]
              rw [mark_cons, List.take_succ_cons, List.drop_succ_cons, copied, left, patchedBy,
                isLast_old]
              exact ⟨Nat.succ_le_succ enough, rfl, rfl, trivial, trivial⟩
          | remove a =>
              have := keeps _ List.mem_cons_self
              simp [isKeep] at this
          | insert b =>
              have := keeps _ List.mem_cons_self
              simp [isKeep] at this

end Body

-- Applying a diff

section Ranges

variable {context : Nat} {script : List (Edit Bytes)}

/-- After the last change of a hunk come more kept lines than two contexts, or no change. -/
theorem lastChange_spec (context : Nat) (script : List (Edit Bytes)) (position run last : Nat)
    {rest : List (Edit Bytes)} (left : rest = script.drop position)
    (place : position = last + run + 1)
    (few : run ≤ context * 2)
    : last ≤ lastChange context position run last rest
      ∧ ∀ p edit,
          lastChange context position run last rest < p
          → position ≤ p
          → script[p]? = some edit
          → isKeep edit = false
          → lastChange context position run last rest + context * 2 + 1 < p := by
  induction rest generalizing position run last with
  | nil =>
      refine ⟨Nat.le_refl _, ?_⟩
      intro p edit _ beyond found
      have short := List.drop_eq_nil_iff.mp left.symm
      rw [List.getElem?_eq_none (by omega)] at found
      cases found
  | cons edit rest ih =>
      have later : rest = script.drop (position + 1) := by
        rw [← List.tail_drop, ← left, List.tail_cons]
      have here : script[position]? = some edit := by
        rw [← List.head?_drop, ← left, List.head?_cons]
      simp only [lastChange]
      split
      · rename_i keep
        -- A change from here on is not this line, which is kept.
        have beyond
            : ∀ p other,
                position ≤ p
                → script[p]? = some other
                → isKeep other = false
                → position + 1 ≤ p := by
          intro p other at_ found change
          by_contra same
          have equal : p = position := by omega
          rw [equal, here] at found
          cases found
          rw [keep] at change
          cases change
        split
        · refine ⟨Nat.le_refl _, ?_⟩
          intro p other _ at_ found change
          have := beyond p other at_ found change
          omega
        · obtain ⟨ahead, far⟩ := ih (position + 1) (run + 1) last later (by omega) (by omega)
          refine ⟨ahead, ?_⟩
          intro p other past at_ found change
          exact far p other past (beyond p other at_ found change) found change
      · obtain ⟨ahead, far⟩ := ih (position + 1) 0 position later (by omega) (Nat.zero_le _)
        refine ⟨by omega, ?_⟩
        intro p other past at_ found change
        exact far p other past (by omega) found change

variable {oldComplete newComplete : Bool}

theorem length_take_add (side : List (Edit Bytes) → List Bytes)
    (append : ∀ a b, side (a ++ b) = side a ++ side b) (script : List (Edit Bytes))
    {start stop : Nat} (le : start ≤ stop)
    : (side (script.take stop)).length
      = (side (script.take start)).length + (side ((script.take stop).drop start)).length := by
  have whole : script.take stop = script.take start ++ (script.take stop).drop start := by
    rw [take_append_stretch script le]
  conv_lhs => rw [whole]
  rw [append, List.length_append]

theorem keptAlike_drop (alike : KeptAlike oldComplete newComplete script) (count : Nat)
    : KeptAlike oldComplete newComplete (script.drop count) := by
  induction count generalizing script with
  | zero => exact alike
  | succ count ih =>
      cases script with
      | nil => trivial
      | cons edit rest =>
          rw [List.drop_succ_cons]
          cases edit with
          | keep a => exact ih alike.2
          | remove a => exact ih alike
          | insert b => exact ih alike

/-- Where a hunk lies in both files, and what its header counts. -/
theorem hunkOf_places (oldComplete newComplete : Bool) (script : List (Edit Bytes))
    {start stop : Nat} (le : start ≤ stop)
    : (hunkOf oldComplete newComplete script (start, stop)).oldAt
        = (before (script.take start)).length
      ∧ (hunkOf oldComplete newComplete script (start, stop)).newAt
        = (after (script.take start)).length
      ∧ (before (script.take start)).length
          + (hunkOf oldComplete newComplete script (start, stop)).oldCount
        = (before (script.take stop)).length
      ∧ (after (script.take start)).length
          + (hunkOf oldComplete newComplete script (start, stop)).newCount
        = (after (script.take stop)).length
      ∧ (hunkOf oldComplete newComplete script (start, stop)).Counted := by
  refine ⟨?_, ?_, ?_, ?_, ?_, ?_⟩
  · simp only [Hunk.oldAt, hunkOf]
    split
    · rfl
    · rfl
  · simp only [Hunk.newAt, hunkOf]
    split
    · rfl
    · rfl
  · exact (length_take_add before before_append script le).symm
  · exact (length_take_add after after_append script le).symm
  · simp only [hunkOf]
    rw [(count_body (stop - start) (script.drop start)).1, List.drop_take]
  · simp only [hunkOf]
    rw [(count_body (stop - start) (script.drop start)).2, List.drop_take]

/-- The hunks from an index on, applied to what is left of the old file from there: they are
ordered, what they make is what the script makes, and where kept lines end alike they make it.
Witness: each hunk begins after the one before it, and only kept lines lie between.
-/
theorem applyHunks_ranges (oldComplete newComplete : Bool) (context : Nat)
    (script : List (Edit Bytes)) (fuel index : Nat) (enough : script.length ≤ index + fuel)
    (room
      : ∀ p edit,
          index ≤ p → script[p]? = some edit → isKeep edit = false → index ≤ p - context)
    : Ordered (before (script.take index)).length (after (script.take index)).length
        ((hunkRanges context script fuel index).map (hunkOf oldComplete newComplete script))
      ∧ (∀ file,
          applyHunks (before (script.take index)).length (after (script.take index)).length
              ((hunkRanges context script fuel index).map (hunkOf oldComplete newComplete script))
              (mark oldComplete (before (script.drop index)))
            = some file
          → file = patched oldComplete newComplete (script.drop index))
      ∧ (KeptAlike oldComplete newComplete script
        → applyHunks (before (script.take index)).length (after (script.take index)).length
            ((hunkRanges context script fuel index).map (hunkOf oldComplete newComplete script))
            (mark oldComplete (before (script.drop index)))
          = some (patched oldComplete newComplete (script.drop index))) := by
  induction fuel generalizing index with
  | zero =>
      rw [List.drop_eq_nil_iff.mpr (by omega)]
      refine ⟨trivial, ?_, fun _ => rfl⟩
      intro file applied
      cases applied
      rfl
  | succ fuel ih =>
      simp only [hunkRanges]
      cases found : (script.drop index).findIdx? (fun edit => !isKeep edit) with
      | none =>
          have keeps : ∀ edit ∈ script.drop index, isKeep edit = true := by
            intro edit member
            have := List.findIdx?_eq_none_iff.mp found edit member
            simpa using this
          obtain ⟨-, copied, left, -, -⟩ := copy_keeps oldComplete newComplete
            (Nat.le_refl (script.drop index).length)
            (by rw [List.take_length]; exact keeps)
          have same
              : mark oldComplete (before (script.drop index))
                = patched oldComplete newComplete (script.drop index) := by
            rw [patched_split (script.drop index).length, ← copied, List.drop_length]
            rw [List.drop_length] at left
            conv_lhs => rw [← List.take_append_drop (script.drop index).length
              (mark oldComplete (before (script.drop index))), left]
            rfl
          refine ⟨trivial, ?_, ?_⟩
          · intro file applied
            cases applied
            exact same
          · intro _
            rw [← same]
            rfl
      | some offset =>
          obtain ⟨inside, isFirst, before_⟩ := List.findIdx?_eq_some_iff_getElem.mp found
          rw [List.length_drop] at inside
          obtain ⟨edit, change, changes⟩
              : ∃ edit, script[index + offset]? = some edit ∧ isKeep edit = false :=
            ⟨_, List.getElem?_eq_getElem (by omega), by simpa using isFirst⟩
          have keeps : ∀ kept ∈ (script.drop index).take offset, isKeep kept = true := by
            intro kept member
            obtain ⟨j, small, rfl⟩ := List.mem_iff_getElem.mp member
            rw [List.length_take] at small
            have := before_ j (by omega)
            rw [List.getElem_take]
            simpa using this
          clear isFirst before_ found
          obtain ⟨first, top⟩ : ∃ first, index + offset = first := ⟨_, rfl⟩
          rw [top] at change
          simp only [List.map_cons, top]
          have within : first < script.length := by omega
          obtain ⟨ahead, far⟩ := lastChange_spec context script (first + 1) 0 first
            rfl rfl (Nat.zero_le _)
          have starts
              : lastChange context first 0 first (script.drop first)
                = lastChange context (first + 1) 0 first (script.drop (first + 1)) := by
            rw [List.getElem?_eq_getElem within] at change
            cases change
            rw [List.drop_eq_getElem_cons within, lastChange, changes]
            rfl
          rw [starts]
          generalize lastChange context (first + 1) 0 first (script.drop (first + 1)) = last at *
          have begins := room first edit (by omega) change changes
          generalize startAt : first - context = start at *
          generalize stopAt : min (last + context + 1) script.length = stop at *
          have le : start ≤ stop := by omega
          obtain ⟨oldAt, newAt, oldEnd, newEnd, counted⟩ := hunkOf_places oldComplete newComplete
            script le
          obtain ⟨enough_, copied, left, oldGap, newGap⟩ := copy_keeps oldComplete newComplete
            (show start - index ≤ (script.drop index).length by rw [List.length_drop]; omega)
            (fun kept member => keeps kept
              ((List.take_sublist_take_left (by omega)).subset member))
          have oldStart := length_take_add before before_append script begins
          have newStart := length_take_add after after_append script begins
          rw [List.drop_take, oldGap] at oldStart
          rw [List.drop_take, newGap] at newStart
          rw [List.drop_drop, Nat.add_sub_of_le begins] at left
          obtain ⟨ordered, makes, applies⟩ := ih stop (by omega) (by
            intro p other at_ found change
            have past : last < p := by
              by_contra low
              obtain ⟨bound, -⟩ := List.getElem?_eq_some_iff.mp found
              omega
            have := far p other past (by omega) found change
            omega)
          have gap : (hunkOf oldComplete newComplete script (start, stop)).oldAt
              - (before (script.take index)).length = start - index := by
            rw [oldAt]
            omega
          have fits
              : (before (script.take index)).length
                  ≤ (hunkOf oldComplete newComplete script (start, stop)).oldAt
                ∧ (hunkOf oldComplete newComplete script (start, stop)).oldAt
                    - (before (script.take index)).length
                  ≤ (mark oldComplete (before (script.drop index))).length
                ∧ (hunkOf oldComplete newComplete script (start, stop)).newAt
                  = (after (script.take index)).length
                    + ((hunkOf oldComplete newComplete script (start, stop)).oldAt
                      - (before (script.take index)).length)
                ∧ (hunkOf oldComplete newComplete script (start, stop)).Counted := by
            refine ⟨by omega, by omega, ?_, counted⟩
            rw [gap, newAt, newStart]
          -- What is copied, what the hunk makes and what the hunks after it make.
          have whole
              : patched oldComplete newComplete (script.drop index)
                = patchedBy oldComplete newComplete (start - index) (script.drop index)
                  ++ patchedBy oldComplete newComplete (stop - start) (script.drop start)
                  ++ patched oldComplete newComplete (script.drop stop) := by
            rw [patched_split (start - index) (script.drop index), List.drop_drop,
              Nat.add_sub_of_le begins, patched_split (stop - start) (script.drop start),
              List.drop_drop, Nat.add_sub_of_le le, List.append_assoc]
          have next : script.drop stop = (script.drop start).drop (stop - start) := by
            rw [List.drop_drop, Nat.add_sub_of_le le]
          rw [applyHunks, if_pos fits, gap, copied, left]
          refine ⟨⟨by omega, by omega, counted, ?_⟩, ?_, ?_⟩
          · rw [oldAt, newAt, oldEnd, newEnd]
            exact ordered
          · intro file applied
            obtain ⟨⟨made, rest⟩, bodyMade, applied⟩ := Option.bind_eq_some_iff.mp applied
            obtain ⟨others, later, done⟩ := Option.bind_eq_some_iff.mp applied
            cases done
            obtain ⟨rfl, rfl⟩ := applyBody_eq bodyMade
            rw [oldAt, newAt, oldEnd, newEnd, ← next] at later
            rw [makes others later, whole]
          · intro alike
            have bodyMade := applyBody_of_keptAlike (keptAlike_drop alike start) (stop - start)
            have later := applies alike
            rw [← oldEnd, ← newEnd, ← oldAt, ← newAt, next] at later
            change (applyBody
              (body oldComplete newComplete (stop - start) (script.drop start)) _).bind
              _ = _
            rw [bodyMade, Option.bind_some]
            change (applyHunks _ _ _ _).bind _ = _
            rw [later, Option.bind_some, whole, next]

end Ranges

/-- A diff reads back as hunks in order that, applied to the old file, give the new one. -/
def Applies (old new : Bytes) (context : Nat) : Prop :=
  ∃ hunks,
    readHunks (unified old new context) = some hunks
    ∧ Ordered 0 0 hunks
    ∧ patch (unified old new context) old = some new

section Applies

variable {old new : Bytes} {context : Nat}

private theorem hunks_apply (old new : Bytes) (context : Nat)
    : ∃ hunks,
        readHunks (unified old new context) = some hunks
        ∧ Ordered 0 0 hunks
        ∧ (∀ file,
            applyHunks 0 0 hunks (fileLines old) = some file
            → file
              = patched (lines old).2 (lines new).2 (myers (lines old).1 (lines new).1))
        ∧ (KeptAlike (lines old).2 (lines new).2 (myers (lines old).1 (lines new).1)
          → applyHunks 0 0 hunks (fileLines old)
            = some (patched (lines old).2 (lines new).2 (myers (lines old).1 (lines new).1))) := by
  have turns := myers_turns (lines old).1 (lines new).1
  refine ⟨_, readHunks_unified old new context, ?_⟩
  generalize myers (lines old).1 (lines new).1 = script at turns ⊢
  have all :=
    applyHunks_ranges (lines old).2 (lines new).2 context script script.length 0 (by omega)
    (fun _ _ _ _ _ => Nat.zero_le _)
  rw [List.drop_zero, turns.before] at all
  exact all

theorem applies_of_keptAlike
    (alike : KeptAlike (lines old).2 (lines new).2 (myers (lines old).1 (lines new).1))
    : Applies old new context := by
  obtain ⟨hunks, read, ordered, -, applies⟩ := hunks_apply old new context
  refine ⟨hunks, read, ordered, ?_⟩
  have turns := myers_turns (lines old).1 (lines new).1
  simp only [patch, read, Option.bind_eq_bind, Option.bind_some, applies alike]
  rw [patched_of_keptAlike alike, turns.after, ← fileLines, fileBytes_fileLines]

theorem keptAlike_of_applies (applies : Applies old new context)
    : KeptAlike (lines old).2 (lines new).2 (myers (lines old).1 (lines new).1) := by
  obtain ⟨hunks, read, -, given⟩ := applies
  obtain ⟨hunks', read', -, makes, -⟩ := hunks_apply old new context
  rw [read] at read'
  cases read'
  have turns := myers_turns (lines old).1 (lines new).1
  simp only [patch, read, Option.bind_eq_bind, Option.bind_some] at given
  obtain ⟨file, made, same⟩ := Option.bind_eq_some_iff.mp given
  apply keptAlike_of_patched
  rw [← makes file made, Option.some.inj same, turns.after, ← fileLines, fileBytes_fileLines]

theorem keptAlike_of_complete (script : List (Edit Bytes)) : KeptAlike true true script := by
  induction script with
  | nil => trivial
  | cons edit rest ih =>
      cases edit with
      | keep a => exact ⟨by simp, ih⟩
      | remove a => exact ih
      | insert b => exact ih

/-- A diff reads back as ordered hunks that give the new file exactly where every line its script
keeps ends in a newline in both files or in neither; so for all files that end in a newline.
Witness: between the hunks only kept lines lie; a kept line that ends otherwise is refused, or
makes the file a byte longer or shorter.
-/
theorem unified_applies_iff (old new : Bytes) (context : Nat)
    : (Applies old new context
        ↔ KeptAlike (lines old).2 (lines new).2 (myers (lines old).1 (lines new).1))
      ∧ ((lines old).2 = true → (lines new).2 = true → Applies old new context) := by
  refine ⟨⟨keptAlike_of_applies, applies_of_keptAlike⟩, ?_⟩
  intro oldComplete newComplete
  refine applies_of_keptAlike ?_
  rw [oldComplete, newComplete]
  exact keptAlike_of_complete _

/-- Two files that differ in the last newline only have no diff. -/
theorem last_newline_lost
    : ¬∀ (old new : Bytes) (context : Nat),
        isBinary old = false → isBinary new = false → old ≠ new → Applies old new context := by
  intro claim
  have applies := claim [97, 10] [97] 3 (by decide) (by decide) (by decide)
  have alike := keptAlike_of_applies applies
  revert alike
  decide

end Applies

end Gfs.Overlay.Diff
