import Gfs.Search.Query

/-! The candidate loop: what it keeps of each blob, and exactly when it gets to its end without
a budget, a failed read or a full page.
-/

namespace Gfs.Search.Index

open Gfs.Types
open Std (ExtTreeMap)

-- Display budgets

/-- How many bytes of a line are kept. -/
def keptLength (perLine : Nat) (text : Bytes) : Nat :=
  (text.take (utf8SafeCut text perLine)).length

namespace DisplayBudget

/-- A budget after several lines. -/
def spendAll (display : DisplayBudget) (kept : List Nat) : DisplayBudget :=
  kept.foldl spend display

theorem spend_perLine (display : DisplayBudget) (kept : Nat)
    : (display.spend kept).perLine = display.perLine := rfl

theorem spendAll_perLine (display : DisplayBudget) (kept : List Nat)
    : (display.spendAll kept).perLine = display.perLine := by
  induction kept generalizing display with
  | nil => rfl
  | cons first rest ih => exact ih (display.spend first)

theorem spendAll_append (display : DisplayBudget) (first second : List Nat)
    : display.spendAll (first ++ second) = (display.spendAll first).spendAll second :=
  List.foldl_append

theorem spendAll_exhausted (display : DisplayBudget) (kept : List Nat)
    : (display.spendAll kept).exhausted = true
      ↔ display.exhausted = true ∨ (kept ≠ [] ∧ display.remaining ≤ kept.sum) := by
  induction kept generalizing display with
  | nil => simp [spendAll]
  | cons first rest ih =>
      rw [spendAll, List.foldl_cons, ← spendAll, ih]
      simp only [spend, Bool.or_eq_true, decide_eq_true_eq, ne_eq, List.sum_cons, reduceCtorEq,
        not_false_eq_true, true_and, or_assoc]
      refine or_congr Iff.rfl ?_
      cases rest with
      | nil => simp
      | cons second rest =>
          simp only [reduceCtorEq, not_false_eq_true, true_and]
          omega

theorem takeAll_eq (display : DisplayBudget) (texts : List Bytes)
    : display.takeAll texts
      = (texts.map (fun text =>
            (text.take (utf8SafeCut text display.perLine),
              decide (keptLength display.perLine text < text.length))),
          display.spendAll (texts.map (keptLength display.perLine))) := by
  induction texts generalizing display with
  | nil => rfl
  | cons text texts ih =>
      simp only [takeAll, take, ih, spend_perLine, List.map_cons]
      rfl

end DisplayBudget

-- The matches of a blob

section Hits

variable (query : Query) (all : List Line)

/-- A match as it is reported. -/
def hitOf (found : Occurrence) : LineHit :=
  (hit query all (.new query.budget) found).1

/-- What a match costs the display budget. -/
def costOf (found : Occurrence) : List Nat :=
  (carried query all found).map (keptLength query.budget.maxLineBytes)

variable {query all}

theorem hit_eq {display : DisplayBudget} (perLine : display.perLine = query.budget.maxLineBytes)
    (found : Occurrence)
    : hit query all display found
      = (hitOf query all found, display.spendAll (costOf query all found)) := by
  simp only [hitOf, hit, DisplayBudget.takeAll_eq, perLine, costOf]
  rfl

variable {room : Nat} {display : DisplayBudget} {founds : List Occurrence}

theorem collect_prefix (perLine : display.perLine = query.budget.maxLineBytes)
    : (collect query all room display founds).1 <+: founds.map (hitOf query all) := by
  induction founds generalizing room display with
  | nil =>
      cases room with
      | zero => exact List.nil_prefix
      | succ room => exact List.nil_prefix
  | cons found rest ih =>
      cases room with
      | zero => exact List.nil_prefix
      | succ room =>
          simp only [collect]
          split
          · exact List.nil_prefix
          · rw [hit_eq perLine]
            simp only [List.map_cons, List.cons_prefix_cons, true_and]
            exact ih (by rw [DisplayBudget.spendAll_perLine, perLine])

theorem collect_perLine (perLine : display.perLine = query.budget.maxLineBytes)
    : (collect query all room display founds).2.perLine = query.budget.maxLineBytes := by
  induction founds generalizing room display with
  | nil =>
      cases room with
      | zero => exact perLine
      | succ room => exact perLine
  | cons found rest ih =>
      cases room with
      | zero => exact perLine
      | succ room =>
          simp only [collect]
          split
          · exact perLine
          · rw [hit_eq perLine]
            exact ih (by rw [DisplayBudget.spendAll_perLine, perLine])

/-- Where the budget does not run out, every match the limit allows is collected and paid. -/
theorem collect_eq (perLine : display.perLine = query.budget.maxLineBytes)
    (left : (collect query all room display founds).2.exhausted = false)
    : collect query all room display founds
      = ((founds.take room).map (hitOf query all),
          display.spendAll ((founds.take room).flatMap (costOf query all))) := by
  induction founds generalizing room display with
  | nil =>
      cases room with
      | zero => rfl
      | succ room => rfl
  | cons found rest ih =>
      cases room with
      | zero => rfl
      | succ room =>
          simp only [collect] at left ⊢
          split
          · rename_i spent
            rw [if_pos spent] at left
            rw [spent] at left
            cases left
          · rename_i unspent
            rw [if_neg unspent, hit_eq perLine] at left
            rw [hit_eq perLine]
            simp only at left ⊢
            rw [ih (by rw [DisplayBudget.spendAll_perLine, perLine]) left]
            simp only [List.take_succ_cons, List.map_cons, List.flatMap_cons,
              DisplayBudget.spendAll_append]

/-- The budget runs out exactly when the matches the limit allows cost what is left. -/
theorem collect_exhausted_iff (perLine : display.perLine = query.budget.maxLineBytes)
    : (collect query all room display founds).2.exhausted = true
      ↔ (display.spendAll ((founds.take room).flatMap (costOf query all))).exhausted = true := by
  induction founds generalizing room display with
  | nil =>
      cases room with
      | zero => rfl
      | succ room => rfl
  | cons found rest ih =>
      cases room with
      | zero => rfl
      | succ room =>
          simp only [collect]
          split
          · rename_i spent
            simp [DisplayBudget.spendAll_exhausted, spent]
          · rw [hit_eq perLine]
            simp only [ih (show (display.spendAll (costOf query all found)).perLine = _ by
              rw [DisplayBudget.spendAll_perLine, perLine]), List.take_succ_cons,
              List.flatMap_cons, DisplayBudget.spendAll_append]

end Hits

-- The blobs that are read

section Reading

/-- The blobs the loop has yet to read, in the order of their first path. -/
def fresh (candidates : Option Bitmap) : List BlobKey → List PathEntry → List BlobKey
  | _, [] => []
  | seen, entry :: rest =>
      if candidates.any (fun keys => entry.key ∉ keys) then fresh candidates seen rest
      else if entry.key ∈ seen then fresh candidates seen rest
      else entry.key :: fresh candidates (entry.key :: seen) rest

/-- A blob the loop has yet to read is a candidate, not read before, and of a path it has yet to
visit.
-/
theorem mem_fresh {candidates : Option Bitmap} {seen : List BlobKey}
    {entries : List PathEntry} {key : BlobKey}
    : key ∈ fresh candidates seen entries
      ↔ (∃ entry ∈ entries, entry.key = key)
        ∧ key ∉ seen
        ∧ ∀ keys ∈ candidates, key ∈ keys := by
  induction entries generalizing seen with
  | nil => simp [fresh]
  | cons entry rest ih =>
      simp only [fresh, Option.any_eq_true, decide_eq_true_eq]
      split
      · rename_i other
        rw [ih]
        obtain ⟨keys, given, outside⟩ := other
        constructor
        · rintro ⟨⟨found, member, same⟩, facts⟩
          exact ⟨⟨found, List.mem_cons_of_mem _ member, same⟩, facts⟩
        · rintro ⟨⟨found, member, same⟩, unseen, proposed⟩
          refine ⟨⟨found, ?_, same⟩, unseen, proposed⟩
          rcases List.mem_cons.mp member with rfl | later
          · exact absurd (same ▸ proposed keys given) outside
          · exact later
      · rename_i proposed
        push Not at proposed
        split
        · rename_i again
          rw [ih]
          constructor
          · rintro ⟨⟨found, member, same⟩, facts⟩
            exact ⟨⟨found, List.mem_cons_of_mem _ member, same⟩, facts⟩
          · rintro ⟨⟨found, member, same⟩, unseen, facts⟩
            refine ⟨⟨found, ?_, same⟩, unseen, facts⟩
            rcases List.mem_cons.mp member with rfl | later
            · exact absurd (same ▸ again) unseen
            · exact later
        · rename_i first
          rw [List.mem_cons, ih]
          constructor
          · rintro (rfl | ⟨⟨found, member, same⟩, unseen, facts⟩)
            · exact ⟨⟨entry, List.mem_cons_self, rfl⟩, first, proposed⟩
            · exact ⟨⟨found, List.mem_cons_of_mem _ member, same⟩,
                fun old => unseen (List.mem_cons_of_mem _ old), facts⟩
          · rintro ⟨⟨found, member, same⟩, unseen, facts⟩
            by_cases here : key = entry.key
            · exact .inl here
            · refine .inr ⟨⟨found, ?_, same⟩, ?_, facts⟩
              · rcases List.mem_cons.mp member with rfl | later
                · exact absurd same.symm here
                · exact later
              · rw [List.mem_cons, not_or]
                exact ⟨here, unseen⟩

theorem fresh_nodup (candidates : Option Bitmap) (seen : List BlobKey)
    (entries : List PathEntry)
    : (fresh candidates seen entries).Nodup := by
  induction entries generalizing seen with
  | nil => exact List.nodup_nil
  | cons entry rest ih =>
      simp only [fresh]
      split
      · exact ih seen
      · split
        · exact ih seen
        · refine List.nodup_cons.mpr ⟨?_, ih _⟩
          intro again
          exact (mem_fresh.mp again).2.1 List.mem_cons_self

variable (inputs : SearchInputs) (query : Query) (matcher : Matcher)

/-- The loop over the blobs to read. -/
def readAll (scan : Scan) : List BlobKey → Scan
  | [] => scan
  | key :: rest =>
      match readBlob inputs query matcher scan key with
      | (true, next) => readAll next rest
      | (false, last) => last

/-- A blob's bytes, where it can be read. -/
def contentOf (key : BlobKey) : Option Bytes :=
  (inputs.records key).bind (fun record => (inputs.read record.oid).toOption)

/-- Every match in a blob's bytes, as it is reported. -/
def allHits (content : Bytes) : List LineHit :=
  (occurrences matcher (lines content)).map (hitOf query (lines content))

/-- Every match in a blob. -/
def hitsOf (key : BlobKey) : List LineHit :=
  ((contentOf inputs key).map (allHits query matcher)).getD []

/-- What the matches of a blob cost the display budget. -/
def costsOf (key : BlobKey) : List Nat :=
  ((contentOf inputs key).map (fun content =>
    (occurrences matcher (lines content)).flatMap (costOf query (lines content)))).getD []

def sizeOf (key : BlobKey) : Nat :=
  ((contentOf inputs key).map List.length).getD 0

/-- How many searched paths carry a blob. -/
def pathsOf (key : BlobKey) : Nat :=
  (inputs.eligible query).countP (fun entry => entry.key = key)

/-- A blob's matches over all its paths. -/
def potentialOf (key : BlobKey) : Nat :=
  (hitsOf inputs query matcher key).length * pathsOf inputs query key

/-- Nothing has cut the query short. -/
structure Clean (scan : Scan) : Prop where
  truncation : scan.truncation = none
  stoppedEarly : scan.stoppedEarly = false
  display : scan.display.exhausted = false

/-- What is left of the budgets is enough for the blobs, and their reads do not fail. -/
structure Fits (scan : Scan) (keys : List BlobKey) : Prop where
  reads
    : ∀ key ∈ keys,
        ∀ record ∈ inputs.records key,
          ∀ e, inputs.read record.oid = .error e → e.code = .notFound
  time
    : ∀ i < keys.length, inputs.elapsed (scan.considered + i) ≤ query.budget.maxTime
  bytes
    : keys ≠ []
      → scan.bytesRead + (keys.dropLast.map (sizeOf inputs)).sum ≤ query.budget.maxBytesRead
  count : keys ≠ [] → scan.considered + keys.length ≤ query.budget.maxCandidates
  display
    : (scan.display.spendAll (keys.flatMap (costsOf inputs query matcher))).exhausted = false
  results
    : ∀ key ∈ keys,
        hitsOf inputs query matcher key ≠ []
        → scan.potential + (keys.map (potentialOf inputs query matcher)).sum
          ≤ query.budget.maxResults

/-- The scan after a blob that fits. -/
def paid (scan : Scan) (key : BlobKey) : Scan where
  perBlob :=
    if hitsOf inputs query matcher key = [] then scan.perBlob
    else scan.perBlob.insert key (hitsOf inputs query matcher key)
  examined := key :: scan.examined
  bytesRead := scan.bytesRead + sizeOf inputs key
  considered := scan.considered + 1
  potential := scan.potential + potentialOf inputs query matcher key
  stoppedEarly := scan.stoppedEarly
  truncation := scan.truncation
  coverage :=
    match inputs.records key with
    | none => scan.coverage
    | some record =>
        match inputs.read record.oid with
        | .error _ => scan.coverage.record .indexGap
        | .ok _ => scan.coverage
  display := scan.display.spendAll (costsOf inputs query matcher key)

variable {inputs query matcher} {candidates : Option Bitmap} {scan : Scan} {key : BlobKey}
  {keys : List BlobKey}

/-- The candidate loop reads each of the blobs it has yet to read. -/
theorem examine_eq (entries : List PathEntry)
    : examine inputs query matcher candidates scan entries
      = readAll inputs query matcher scan (fresh candidates scan.examined entries) := by
  induction entries generalizing scan with
  | nil => rfl
  | cons entry rest ih =>
      simp only [examine, visit, fresh]
      split_ifs with other again
      · exact ih
      · exact ih
      · simp only [readAll]
        cases ran : readBlob inputs query matcher scan entry.key with
        | mk goes next =>
            cases goes with
            | false => rfl
            | true =>
                have seen : next.examined = entry.key :: scan.examined := by
                  simp only [readBlob] at ran
                  repeat' split at ran
                  all_goals cases ran
                  all_goals rfl
                simp only
                rw [ih, seen]

/-- A blob whose read fits what is left of the budgets is paid for, and the loop goes on. -/
theorem readBlob_of_fits (perLine : scan.display.perLine = query.budget.maxLineBytes)
    (carried : 0 < pathsOf inputs query key) (unspent : scan.display.exhausted = false)
    (fits : Fits inputs query matcher scan [key])
    : readBlob inputs query matcher scan key = (true, paid inputs query matcher scan key) := by
  have time : ¬inputs.elapsed scan.considered > query.budget.maxTime := by
    have := fits.time 0 (Nat.zero_lt_one)
    exact Nat.not_lt.mpr this
  have bytes : ¬scan.bytesRead > query.budget.maxBytesRead := by
    have := fits.bytes (List.cons_ne_nil _ _)
    simpa using this
  have count : ¬scan.considered ≥ query.budget.maxCandidates := by
    have := fits.count (List.cons_ne_nil _ _)
    simp only [List.length_cons, List.length_nil] at this
    omega
  have display := fits.display
  simp only [List.flatMap_cons, List.flatMap_nil, List.append_nil] at display
  have results := fits.results key List.mem_cons_self
  simp only [List.map_cons, List.map_nil, List.sum_cons, List.sum_nil, Nat.add_zero] at results
  have goes
      : stopReason inputs query { scan with examined := key :: scan.examined } = none := by
    simp only [stopReason, unspent, Bool.false_eq_true, if_false]
    rw [if_neg time, if_neg bytes, if_neg count]
  simp only [readBlob, goes]
  cases stored : inputs.records key with
  | none =>
      simp [paid, stored, contentOf, hitsOf, costsOf, sizeOf, potentialOf,
        DisplayBudget.spendAll]
  | some record =>
      cases got : inputs.read record.oid with
      | error e =>
          have vanished := fits.reads key List.mem_cons_self record stored e got
          simp [paid, stored, got, vanished, contentOf, hitsOf, costsOf, sizeOf, potentialOf,
            DisplayBudget.spendAll, Except.toOption]
      | ok content =>
          have known : contentOf inputs key = some content := by
            simp [contentOf, stored, got, Except.toOption]
          have every : hitsOf inputs query matcher key = allHits query matcher content := by
            simp [hitsOf, known]
          have costs
              : costsOf inputs query matcher key
                = (occurrences matcher (lines content)).flatMap
                    (costOf query (lines content)) := by
            simp [costsOf, known]
          have size : sizeOf inputs key = content.length := by simp [sizeOf, known]
          have few
              : (occurrences matcher (lines content)).length ≤ query.budget.maxResults := by
            by_cases some_ : hitsOf inputs query matcher key = []
            · rw [every, allHits, List.map_eq_nil_iff] at some_
              simp [some_]
            · have product := results some_
              have more := Nat.le_mul_of_pos_right (hitsOf inputs query matcher key).length carried
              rw [every, allHits, List.length_map] at more
              rw [potentialOf, every, allHits, List.length_map] at product
              omega
          have whole
              : (occurrences matcher (lines content)).take (query.budget.maxResults + 1)
                = occurrences matcher (lines content) :=
            List.take_of_length_le (by omega)
          have left
              : (findInBlob matcher content query (query.budget.maxResults + 1)
                  scan.display).2.exhausted = false := by
            rw [Bool.eq_false_iff, ne_eq, findInBlob, collect_exhausted_iff perLine, whole, ← costs,
              display]
            exact Bool.false_ne_true
          have ran
              : findInBlob matcher content query (query.budget.maxResults + 1) scan.display
                = (hitsOf inputs query matcher key,
                    scan.display.spendAll (costsOf inputs query matcher key)) := by
            rw [findInBlob, collect_eq perLine left, whole, ← costs, every, allHits]
          simp only [got, ran]
          by_cases none_ : hitsOf inputs query matcher key = []
          · simp [none_, paid, stored, got, size, potentialOf]
          · have room := results none_
            rw [potentialOf] at room
            have under
                : ¬scan.potential
                    + (hitsOf inputs query matcher key).length
                      * (inputs.eligible query).countP (fun e => decide (e.key = key))
                  > query.budget.maxResults :=
              Nat.not_lt.mpr room
            rw [if_neg (by simpa using none_), if_neg under]
            simp [none_, paid, stored, got, size, potentialOf, pathsOf]

theorem note_ne_none (slot : Option TruncationReason) (reason : TruncationReason)
    : note slot reason ≠ none := by
  cases slot with
  | none => exact Option.some_ne_none reason
  | some first => exact Option.some_ne_none first

theorem not_clean_of_stops (stops : (readBlob inputs query matcher scan key).1 = false)
    : ¬Clean (readBlob inputs query matcher scan key).2 := by
  intro clean
  obtain ⟨truncation, early, _⟩ := clean
  simp only [readBlob] at stops truncation early
  repeat' split at stops
  all_goals simp_all [note_ne_none]

theorem running_of_goes (goes : (readBlob inputs query matcher scan key).1 = true)
    : scan.display.exhausted = false
      ∧ stopReason inputs query { scan with examined := key :: scan.examined } = none := by
  constructor
  · by_contra spent
    rw [Bool.not_eq_false] at spent
    simp only [readBlob, stopReason, spent, if_true] at goes
    cases goes
  · cases reason : stopReason inputs query { scan with examined := key :: scan.examined } with
    | none => rfl
    | some reason =>
        simp only [readBlob, reason] at goes
        cases goes

/-- A blob after which the loop goes on, with line text left to keep, fitted what was left of the
budgets.
-/
theorem fits_of_goes (perLine : scan.display.perLine = query.budget.maxLineBytes)
    (carried : 0 < pathsOf inputs query key)
    (goes : (readBlob inputs query matcher scan key).1 = true)
    (after : (readBlob inputs query matcher scan key).2.display.exhausted = false)
    : Fits inputs query matcher scan [key] := by
  obtain ⟨unspent, running⟩ := running_of_goes goes
  have budgets := running
  simp only [stopReason, unspent, Bool.false_eq_true, if_false] at budgets
  split_ifs at budgets with late heavy many
  simp only [readBlob, running] at goes after
  -- What of the budgets the blob's own bytes and matches say is left to each case.
  have fits
      : (∀ record ∈ inputs.records key,
            ∀ e, inputs.read record.oid = .error e → e.code = .notFound)
        → (scan.display.spendAll (costsOf inputs query matcher key)).exhausted = false
        → (hitsOf inputs query matcher key ≠ []
            → scan.potential + potentialOf inputs query matcher key ≤ query.budget.maxResults)
        → Fits inputs query matcher scan [key] := by
    intro reads display results
    refine ⟨?_, ?_, ?_, ?_, ?_, ?_⟩
    · intro other member
      rw [List.mem_singleton.mp member]
      exact reads
    · intro i small
      simp only [List.length_cons, List.length_nil, Nat.zero_add, Nat.lt_one_iff] at small
      rw [small]
      exact Nat.not_lt.mp late
    · intro _
      simpa using Nat.not_lt.mp heavy
    · intro _
      simpa using Nat.lt_of_not_le many
    · simpa using display
    · intro other member
      rw [List.mem_singleton.mp member]
      simpa using results
  cases stored : inputs.records key with
  | none =>
      simp only [stored] at goes after
      have unknown : contentOf inputs key = none := by simp [contentOf, stored]
      refine fits ?_ ?_ ?_
      · intro record member
        rw [stored] at member
        cases member
      · simpa [costsOf, unknown, DisplayBudget.spendAll] using unspent
      · intro some_
        exact absurd (by simp [hitsOf, unknown]) some_
  | some record =>
      simp only [stored] at goes after
      cases got : inputs.read record.oid with
      | error e =>
          simp only [got] at goes after
          have unknown : contentOf inputs key = none := by
            simp [contentOf, stored, got, Except.toOption]
          split at goes
          · rename_i vanished
            rw [if_pos vanished] at after
            refine fits ?_ ?_ ?_
            · intro other member e' failed
              rw [stored] at member
              cases member
              rw [got] at failed
              cases failed
              exact vanished
            · simpa [costsOf, unknown, DisplayBudget.spendAll] using unspent
            · intro some_
              exact absurd (by simp [hitsOf, unknown]) some_
          · cases goes
      | ok content =>
          simp only [got] at goes after
          have known : contentOf inputs key = some content := by
            simp [contentOf, stored, got, Except.toOption]
          have left
              : (findInBlob matcher content query (query.budget.maxResults + 1)
                  scan.display).2.exhausted = false := by
            split at after
            · exact after
            · split at after
              · exact after
              · exact after
          have ran
              : findInBlob matcher content query (query.budget.maxResults + 1) scan.display
                = (((occurrences matcher (lines content)).take (query.budget.maxResults + 1)).map
                      (hitOf query (lines content)),
                    scan.display.spendAll
                      (((occurrences matcher (lines content)).take
                        (query.budget.maxResults + 1)).flatMap
                          (costOf query (lines content)))) := by
            rw [findInBlob, collect_eq perLine left]
          rw [ran] at left
          simp only [ran] at goes after
          have every : hitsOf inputs query matcher key = allHits query matcher content := by
            simp [hitsOf, known]
          have costs
              : costsOf inputs query matcher key
                = (occurrences matcher (lines content)).flatMap
                    (costOf query (lines content)) := by
            simp [costsOf, known]
          have few
              : hitsOf inputs query matcher key ≠ []
                → (occurrences matcher (lines content)).length ≤ query.budget.maxResults
                  ∧ scan.potential + potentialOf inputs query matcher key
                      ≤ query.budget.maxResults := by
            intro some_
            rw [every, allHits, ne_eq, List.map_eq_nil_iff, ← List.length_eq_zero_iff] at some_
            rw [if_neg (by
              rw [List.isEmpty_iff, List.map_eq_nil_iff, ← List.length_eq_zero_iff,
                List.length_take]
              omega)] at goes
            split at goes
            · cases goes
            · rename_i under
              simp only [List.length_map, List.length_take, gt_iff_lt, not_lt] at under
              change scan.potential
                + min (query.budget.maxResults + 1) (occurrences matcher (lines content)).length
                  * pathsOf inputs query key ≤ _ at under
              have more := Nat.le_mul_of_pos_right
                (min (query.budget.maxResults + 1) (occurrences matcher (lines content)).length)
                carried
              have fit
                  : (occurrences matcher (lines content)).length ≤ query.budget.maxResults := by
                omega
              rw [Nat.min_eq_right (by omega)] at under
              refine ⟨fit, ?_⟩
              rw [potentialOf, every, allHits, List.length_map]
              exact under
          refine fits ?_ ?_ (fun some_ => (few some_).2)
          · intro other member e failed
            rw [stored] at member
            cases member
            rw [got] at failed
            cases failed
          · rw [costs]
            rw [← List.take_of_length_le (i := query.budget.maxResults + 1)
              (l := occurrences matcher (lines content)) ?_]
            · exact left
            · by_cases some_ : hitsOf inputs query matcher key = []
              · rw [every, allHits, List.map_eq_nil_iff] at some_
                simp [some_]
              · have := (few some_).1
                omega

theorem fits_of_clean (perLine : scan.display.perLine = query.budget.maxLineBytes)
    (carried : 0 < pathsOf inputs query key)
    (goes : (readBlob inputs query matcher scan key).1 = true)
    (after : Clean (readBlob inputs query matcher scan key).2)
    : Clean scan ∧ Fits inputs query matcher scan [key] := by
  have fits := fits_of_goes perLine carried goes after.display
  have unspent := (running_of_goes goes).1
  rw [readBlob_of_fits perLine carried unspent fits] at after
  exact ⟨⟨after.truncation, after.stoppedEarly, unspent⟩, fits⟩

/-- Blobs fit one after the other. -/
theorem fits_cons
    : Fits inputs query matcher scan (key :: keys)
      ↔ Fits inputs query matcher scan [key]
        ∧ Fits inputs query matcher (paid inputs query matcher scan key) keys := by
  constructor
  · intro fits
    have display := fits.display
    rw [List.flatMap_cons, DisplayBudget.spendAll_append] at display
    have room := fits.count (List.cons_ne_nil _ _)
    rw [List.length_cons] at room
    refine ⟨⟨?_, ?_, ?_, ?_, ?_, ?_⟩, ⟨?_, ?_, ?_, ?_, display, ?_⟩⟩
    · intro other member
      exact fits.reads other (List.mem_cons.mpr (.inl (List.mem_singleton.mp member)))
    · intro i small
      refine fits.time i (Nat.lt_of_lt_of_le small ?_)
      simp
    · intro _
      have := fits.bytes (List.cons_ne_nil _ _)
      simp only [List.dropLast_singleton, List.map_nil, List.sum_nil, Nat.add_zero]
      omega
    · intro _
      simp only [List.length_cons, List.length_nil]
      omega
    · by_contra spent
      rw [Bool.not_eq_false] at spent
      simp only [List.flatMap_cons, List.flatMap_nil, List.append_nil] at spent
      rw [Bool.eq_false_iff] at display
      exact display ((DisplayBudget.spendAll_exhausted _ _).mpr (.inl spent))
    · intro other member some_
      have total := fits.results key List.mem_cons_self ((List.mem_singleton.mp member) ▸ some_)
      simp only [List.map_cons, List.sum_cons] at total
      simp only [List.map_cons, List.map_nil, List.sum_cons, List.sum_nil]
      omega
    · intro other member
      exact fits.reads other (List.mem_cons_of_mem _ member)
    · intro i small
      have := fits.time (i + 1) (by simpa using small)
      rw [show scan.considered + (i + 1) = scan.considered + 1 + i by omega] at this
      exact this
    · intro some_
      have := fits.bytes (List.cons_ne_nil _ _)
      rw [List.dropLast_cons_of_ne_nil some_, List.map_cons, List.sum_cons, ← Nat.add_assoc] at this
      exact this
    · intro _
      change scan.considered + 1 + keys.length ≤ _
      omega
    · intro other member some_
      have total := fits.results other (List.mem_cons_of_mem _ member) some_
      rw [List.map_cons, List.sum_cons, ← Nat.add_assoc] at total
      exact total
  · rintro ⟨here, later⟩
    have display := later.display
    refine ⟨?_, ?_, ?_, ?_, ?_, ?_⟩
    · intro other member
      cases List.mem_cons.mp member with
      | inl same => exact here.reads other (List.mem_singleton.mpr same)
      | inr member => exact later.reads other member
    · intro i small
      cases i with
      | zero => exact here.time 0 Nat.zero_lt_one
      | succ i =>
          have := later.time i (by simpa using small)
          rw [show scan.considered + (i + 1) = scan.considered + 1 + i by omega]
          exact this
    · intro _
      cases keys with
      | nil => simpa using here.bytes (List.cons_ne_nil _ _)
      | cons second rest =>
          have := later.bytes (List.cons_ne_nil _ _)
          rw [List.dropLast_cons_of_ne_nil (List.cons_ne_nil _ _), List.map_cons, List.sum_cons,
            ← Nat.add_assoc]
          exact this
    · intro _
      cases keys with
      | nil => exact here.count (List.cons_ne_nil _ _)
      | cons second rest =>
          have := later.count (List.cons_ne_nil _ _)
          change scan.considered + 1 + _ ≤ _ at this
          simp only [List.length_cons] at this ⊢
          omega
    · rw [List.flatMap_cons, DisplayBudget.spendAll_append]
      exact display
    · intro other member some_
      have first := here.results key List.mem_cons_self
      simp only [List.map_cons, List.map_nil, List.sum_cons, List.sum_nil,
        Nat.add_zero] at first ⊢
      -- The last blob with matches bounds the sum: those after it add nothing.
      by_cases others : ∃ last ∈ keys, hitsOf inputs query matcher last ≠ []
      · obtain ⟨last, inside, hits⟩ := others
        have total := later.results last inside hits
        change scan.potential + potentialOf inputs query matcher key + _ ≤ _ at total
        omega
      · push Not at others
        have empty : (keys.map (potentialOf inputs query matcher)).sum = 0 := by
          rw [List.sum_eq_zero_iff]
          intro count listed
          obtain ⟨last, inside, rfl⟩ := List.mem_map.mp listed
          simp [potentialOf, others last inside]
        rw [empty, Nat.add_zero]
        refine first ?_
        cases List.mem_cons.mp member with
        | inl same => exact same ▸ some_
        | inr inside => exact absurd (others other inside) some_

theorem paid_clean (clean : Clean scan) (fits : Fits inputs query matcher scan [key])
    : Clean (paid inputs query matcher scan key) := by
  refine ⟨clean.truncation, clean.stoppedEarly, ?_⟩
  have display := fits.display
  simp only [List.flatMap_cons, List.flatMap_nil, List.append_nil] at display
  exact display

theorem paid_perLine (perLine : scan.display.perLine = query.budget.maxLineBytes)
    : (paid inputs query matcher scan key).display.perLine = query.budget.maxLineBytes := by
  rw [paid, DisplayBudget.spendAll_perLine, perLine]

theorem readBlob_perLine (inputs : SearchInputs) (matcher : Matcher) (key : BlobKey)
    (perLine : scan.display.perLine = query.budget.maxLineBytes)
    : (readBlob inputs query matcher scan key).2.display.perLine = query.budget.maxLineBytes := by
  simp only [readBlob]
  repeat' split
  all_goals first | exact perLine | exact collect_perLine perLine

/-- What is kept of a blob is its first matches. -/
def Kept (inputs : SearchInputs) (query : Query) (matcher : Matcher) (scan : Scan) : Prop :=
  ∀ key hits, scan.perBlob[key]? = some hits → hits <+: hitsOf inputs query matcher key

theorem readBlob_kept (key : BlobKey)
    (perLine : scan.display.perLine = query.budget.maxLineBytes)
    (kept : Kept inputs query matcher scan)
    : Kept inputs query matcher (readBlob inputs query matcher scan key).2 := by
  have first
      : ∀ record content,
          inputs.records key = some record
          → inputs.read record.oid = .ok content
          → (findInBlob matcher content query (query.budget.maxResults + 1) scan.display).1
              <+: hitsOf inputs query matcher key := by
    intro record content stored got
    have known : contentOf inputs key = some content := by
      simp [contentOf, stored, got, Except.toOption]
    rw [show hitsOf inputs query matcher key = allHits query matcher content by
      simp [hitsOf, known]]
    exact collect_prefix perLine
  have grown
      : ∀ record content,
          inputs.records key = some record
          → inputs.read record.oid = .ok content
          → ∀ other hits,
              (scan.perBlob.insert key
                  (findInBlob matcher content query (query.budget.maxResults + 1)
                    scan.display).1)[other]?
                = some hits
              → hits <+: hitsOf inputs query matcher other := by
    intro record content stored got other hits known
    rw [ExtTreeMap.getElem?_insert] at known
    split at known
    · rename_i same
      rw [Std.LawfulEqCmp.compare_eq_iff_eq] at same
      cases known
      exact same ▸ first record content stored got
    · exact kept other hits known
  simp only [readBlob]
  split
  · exact kept
  · split
    · exact kept
    · rename_i record stored
      split
      · split
        · exact kept
        · exact kept
      · rename_i content got
        split
        · exact kept
        · split
          · exact grown record content stored got
          · exact grown record content stored got

theorem readAll_kept (perLine : scan.display.perLine = query.budget.maxLineBytes)
    (kept : Kept inputs query matcher scan)
    : Kept inputs query matcher (readAll inputs query matcher scan keys) := by
  induction keys generalizing scan with
  | nil => exact kept
  | cons key rest ih =>
      simp only [readAll]
      have line := readBlob_perLine inputs matcher key perLine
      have step := readBlob_kept key perLine kept
      cases ran : readBlob inputs query matcher scan key with
      | mk goes next =>
          rw [ran] at line step
          cases goes with
          | false => exact step
          | true => exact ih line step

theorem readAll_of_fits (perLine : scan.display.perLine = query.budget.maxLineBytes)
    (carried : ∀ key ∈ keys, 0 < pathsOf inputs query key) (clean : Clean scan)
    (fits : Fits inputs query matcher scan keys)
    : readAll inputs query matcher scan keys = keys.foldl (paid inputs query matcher) scan
      ∧ Clean (readAll inputs query matcher scan keys) := by
  induction keys generalizing scan with
  | nil => exact ⟨rfl, clean⟩
  | cons key rest ih =>
      obtain ⟨here, later⟩ := fits_cons.mp fits
      simp only [readAll,
        readBlob_of_fits perLine (carried key List.mem_cons_self) clean.display here,
        List.foldl_cons]
      exact ih (paid_perLine perLine)
        (fun other member => carried other (List.mem_cons_of_mem _ member))
        (paid_clean clean here) later

/-- The loop ends with nothing cut short exactly when its blobs fit the budgets. -/
theorem readAll_clean_iff (perLine : scan.display.perLine = query.budget.maxLineBytes)
    (carried : ∀ key ∈ keys, 0 < pathsOf inputs query key)
    : Clean (readAll inputs query matcher scan keys)
      ↔ Clean scan ∧ Fits inputs query matcher scan keys := by
  refine ⟨?_, fun ⟨clean, fits⟩ => (readAll_of_fits perLine carried clean fits).2⟩
  intro after
  induction keys generalizing scan with
  | nil =>
      refine ⟨after, ?_⟩
      constructor
      · exact fun _ member => (nomatch member)
      · exact fun _ small => (nomatch small)
      · exact fun some_ => absurd rfl some_
      · exact fun some_ => absurd rfl some_
      · exact after.display
      · exact fun _ member => (nomatch member)
  | cons key rest ih =>
      have first := carried key List.mem_cons_self
      cases ran : readBlob inputs query matcher scan key with
      | mk goes next =>
          simp only [readAll, ran] at after
          cases goes with
          | false =>
              have stops : (readBlob inputs query matcher scan key).1 = false := by rw [ran]
              refine absurd ?_ (not_clean_of_stops stops)
              rw [ran]
              exact after
          | true =>
              -- A blob that is not read cleanly leaves a scan that never is.
              have kept : next.display.perLine = query.budget.maxLineBytes := by
                have := readBlob_perLine inputs matcher key perLine
                rwa [ran] at this
              obtain ⟨clean, fits⟩ := ih kept
                (fun other member => carried other (List.mem_cons_of_mem _ member)) after
              obtain ⟨before, here⟩ :=
                fits_of_clean perLine first (by rw [ran]) (by rw [ran]; exact clean)
              rw [readBlob_of_fits perLine first before.display here] at ran
              cases ran
              exact ⟨before, fits_cons.mpr ⟨here, fits⟩⟩

end Reading

end Gfs.Search.Index
