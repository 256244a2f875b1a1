import Gfs.Search.Building

/-! The blob registry (`gfs-search/src/registry.rs`) and the builders that fill it
(`IndexManager::ingest` of `gfs-service/src/search/mod.rs`). Every database transaction is one
step of a builder, and a builder may stop between any two.
-/

namespace Gfs.Search.Ingestion

open Gfs.Types
open Gfs.Search.Index
open Gfs.Search.Manifests (BlobFact)

-- Classification

/-- Whether trigrams should be extracted. -/
def isIndexable : ContentClass → Bool
  | .text | .invalidUtf8 => true
  | _ => false

/-- Classify a blob from its size alone, when that is enough. -/
def classifySize (policy : CorpusPolicy) (size : Nat) : Option ContentClass :=
  if size > policy.maxBlobBytes then some .oversized else none

/-- Classify a blob from its bytes. -/
def classifyContent (policy : CorpusPolicy) (content : Bytes) : ContentClass :=
  if content.length > policy.maxBlobBytes then .oversized
  else if (content.take policy.binaryProbeBytes).contains 0 then .binary
  else if (Text.fromUtf8 content).isNone then .invalidUtf8
  else .text

-- The tables

/-- A row of the table of blobs: what the registry knows about one. -/
structure BlobRow where
  oid : ObjectId
  key : BlobKey
  size : Nat
  /-- `none` until the bytes have been examined. -/
  «class» : Option ContentClass
  /-- Whether posting lists exist for this key. -/
  indexed : Bool
  deriving DecidableEq, Repr

/-- One repository's tables: its blobs, the next key and the posting lists. -/
structure Tables where
  blobs : List BlobRow
  nextKey : Nat
  postings : PostingStore

def Tables.empty : Tables := ⟨[], 0, ∅⟩

/-- A key has 32 bits. -/
def toKey (value : Nat) : Except GfsError BlobKey :=
  if value < 2 ^ 32 then .ok value
  else
    .error ⟨.resourceLimit,
      "the repository has more unique blobs than the index can key".toList⟩

namespace Tables

variable (tables : Tables)

/-- The row of an object id. -/
def row (oid : ObjectId) : Option BlobRow :=
  tables.blobs.find? (fun row => row.oid = oid)

/-- Look an object id up, and insert it with the next key when it is new. -/
def internOne (fact : BlobFact) : Except GfsError (Tables × BlobKey) :=
  match tables.row fact.oid with
  | some row => .ok (tables, row.key)
  | none =>
      (toKey tables.nextKey).map (fun key =>
        ({ tables with
            blobs := tables.blobs ++ [⟨fact.oid, key, fact.size, none, false⟩]
            nextKey := tables.nextKey + 1 },
          key))

/-- Assign keys to blobs in one transaction, one key per fact in order. -/
def intern : Tables → List BlobFact → Except GfsError (Tables × List BlobKey)
  | tables, [] => .ok (tables, [])
  | tables, fact :: facts => do
      let (tables, key) ← tables.internOne fact
      let (tables, keys) ← intern tables facts
      pure (tables, key :: keys)

/-- Which of these keys have already been classified. -/
def classifiedKeys (keys : List BlobKey) : List BlobKey :=
  (tables.blobs.filter (fun row => row.key ∈ keys ∧ row.class.isSome)).map BlobRow.key

/-- `UPDATE blobs SET content_class`, for one key. -/
def setClass (update : BlobKey × ContentClass) : Tables where
  blobs :=
    tables.blobs.map (fun row =>
      if row.key = update.1 then { row with «class» := some update.2 } else row)
  nextKey := tables.nextKey
  postings := tables.postings

/-- Record a batch's classes in one transaction. -/
def applyClassifications (updates : List (BlobKey × ContentClass)) : Tables :=
  updates.foldl setClass tables

/-- Mark keys as having posting lists. -/
def markIndexed (keys : List BlobKey) : Tables where
  blobs :=
    tables.blobs.map (fun row => if row.key ∈ keys then { row with indexed := true } else row)
  nextKey := tables.nextKey
  postings := tables.postings

/-- Merge a batch into the posting lists in one transaction. -/
def mergePostings (batch : List (BlobKey × Bytes)) : Tables :=
  { tables with postings := PostingStore.merge tables.postings (.of batch) }

end Tables

-- One batch

/-- Bounds on one ingestion batch. -/
structure IngestBudget where
  maxBlobBytes : Nat
  maxBytesPerBatch : Nat
  maxBlobsPerBatch : Nat
  deriving DecidableEq, Repr

/-- What one batch found: the classes to record, the blobs to post and whether it stopped on a
budget.
-/
structure Pass where
  updates : List (BlobKey × ContentClass)
  batch : List (BlobKey × Bytes)
  alreadyKnown : Nat
  newlyClassified : Nat
  bytesRead : Nat
  budgetExhausted : Bool
  deriving DecidableEq, Repr

def Pass.empty : Pass := ⟨[], [], 0, 0, 0, false⟩

/-- A blob is classified and, when its bytes were read, posted. -/
def Pass.record (pass : Pass) (key : BlobKey) («class» : ContentClass) (read : Option Bytes)
    : Pass where
  updates := pass.updates ++ [(key, «class»)]
  batch :=
    match read with
    | some content => if isIndexable «class» then pass.batch ++ [(key, content)] else pass.batch
    | none => pass.batch
  alreadyKnown := pass.alreadyKnown
  newlyClassified := pass.newlyClassified + 1
  bytesRead := pass.bytesRead + (read.map List.length).getD 0
  budgetExhausted := pass.budgetExhausted

/-- What classifies a builder's blobs: the policy, the budget and the blobs themselves. -/
structure Corpus where
  policy : CorpusPolicy
  budget : IngestBudget
  read : ObjectId → Except GfsError Bytes

namespace Corpus

variable (corpus : Corpus)

/-- Classify one blob: by its attribute, by its size, or by its bytes. -/
def classify (fact : BlobFact) : Except GfsError (ContentClass × Option Bytes) :=
  if fact.lfs then .ok (.lfs, none)
  else
    match classifySize corpus.policy fact.size with
    | some «class» => .ok («class», none)
    | none =>
        if fact.size > corpus.budget.maxBlobBytes then .ok (.oversized, none)
        else
          (corpus.read fact.oid).map
            (fun content => (classifyContent corpus.policy content, some content))

/-- Classify every blob that is not classified yet, until a budget is spent. -/
def scan (known : List BlobKey) : List (BlobFact × BlobKey) → Pass → Except GfsError Pass
  | [], pass => .ok pass
  | (fact, key) :: rest, pass =>
      if key ∈ known ∨ key ∈ pass.updates.map Prod.fst then
        scan known rest { pass with alreadyKnown := pass.alreadyKnown + 1 }
      else if pass.newlyClassified ≥ corpus.budget.maxBlobsPerBatch
          ∨ pass.bytesRead ≥ corpus.budget.maxBytesPerBatch then
        .ok { pass with budgetExhausted := true }
      else
        match corpus.classify fact with
        | .ok («class», read) => scan known rest (pass.record key «class» read)
        | .error refusal => .error refusal

end Corpus

-- Builders

/-- Where a builder stands. -/
inductive Stage where
  /-- It has its facts and no keys. -/
  | interning
  /-- At the top of the loop over batches. -/
  | passing (keys : List BlobKey)
  /-- A batch is read, and nothing of it written. -/
  | classifying (keys : List BlobKey) (pass : Pass)
  /-- The classes are written, and the posting lists are not. -/
  | merging (keys : List BlobKey) (pass : Pass)
  /-- The posting lists are written, and the blobs are not marked. -/
  | marking (keys : List BlobKey) (pass : Pass)
  /-- Every batch is done, and the snapshot is not READY yet. -/
  | finished (keys : List BlobKey)
  /-- The snapshot is READY. -/
  | ready (keys : List BlobKey)
  deriving DecidableEq, Repr

/-- A snapshot's preparation: what it took over from its first parent's manifest, the facts it
ingests, where it stands and whether it crashed, failed or was cancelled there.
-/
structure Builder where
  inherited : List BlobKey
  facts : List BlobFact
  stage : Stage
  stopped : Bool
  deriving DecidableEq, Repr

/-- The keys the registry gave a builder. -/
def Stage.keys : Stage → List BlobKey
  | .interning => []
  | .passing keys | .classifying keys _ | .merging keys _ | .marking keys _ | .finished keys
  | .ready keys => keys

/-- The blobs a builder has classified and not marked. -/
def Stage.unposted : Stage → List (BlobKey × Bytes)
  | .merging _ pass | .marking _ pass => pass.batch
  | _ => []

/-- The blobs of a builder's snapshot. -/
def Builder.members (builder : Builder) : List BlobKey :=
  builder.inherited ++ builder.stage.keys

def Builder.isReady (builder : Builder) : Bool :=
  match builder.stage with
  | .ready _ => true
  | _ => false

/-- The registry of a repository and every builder so far. -/
structure World where
  tables : Tables
  builders : List Builder

def World.empty : World := ⟨.empty, []⟩

/-- After a batch: another one where a budget stopped it, and else the end of the loop. -/
def afterPass (keys : List BlobKey) (pass : Pass) : Stage :=
  if pass.budgetExhausted then .passing keys else .finished keys

/-- One step of a builder. `none` where it fails. -/
def Builder.advance (corpus : Corpus) (tables : Tables) (builder : Builder)
    : Option (Tables × Stage) :=
  match builder.stage with
  | .interning =>
      match tables.intern builder.facts with
      | .ok (tables, keys) => some (tables, .passing keys)
      | .error _ => none
  | .passing keys =>
      -- The batch interns its facts again.
      match tables.intern builder.facts with
      | .ok (tables, again) =>
          match corpus.scan (tables.classifiedKeys again) (builder.facts.zip again) .empty with
          | .ok pass => some (tables, .classifying keys pass)
          | .error _ => none
      | .error _ => none
  | .classifying keys pass =>
      some (tables.applyClassifications pass.updates,
        if pass.batch = [] then afterPass keys pass else .merging keys pass)
  | .merging keys pass => some (tables.mergePostings pass.batch, .marking keys pass)
  | .marking keys pass =>
      some (tables.markIndexed (pass.batch.map Prod.fst), afterPass keys pass)
  | .finished keys => some (tables, .ready keys)
  | .ready keys => some (tables, .ready keys)

/-- What may happen next. -/
inductive Event where
  /-- A preparation starts, over a READY snapshot or over none. The manifest's delta says what it
  keeps of that one.
  -/
  | begin (base : Option Nat) (keeps : BlobKey → Bool) (facts : List BlobFact)
  /-- A builder takes its next step. -/
  | advance (index : Nat)
  /-- A builder crashes, fails or is cancelled. -/
  | stop (index : Nat)

/-- What a preparation takes over. -/
def World.inherited (world : World) (base : Option Nat) (keeps : BlobKey → Bool)
    : List BlobKey :=
  match base.bind (world.builders[·]?) with
  | some parent => if parent.isReady then parent.members.filter keeps else []
  | none => []

/-- The world after an event. -/
def World.step (corpus : Corpus) (world : World) : Event → World
  | .begin base keeps facts =>
      { world with
        builders := world.builders ++ [⟨world.inherited base keeps, facts, .interning, false⟩] }
  | .advance index =>
      match world.builders[index]? with
      | none => world
      | some builder =>
          if builder.stopped then world
          else
            match builder.advance corpus world.tables with
            | some (tables, stage) =>
                ⟨tables, world.builders.set index { builder with stage }⟩
            | none =>
                { world with
                  builders := world.builders.set index { builder with stopped := true } }
  | .stop index =>
      match world.builders[index]? with
      | none => world
      | some builder =>
          { world with builders := world.builders.set index { builder with stopped := true } }

end Gfs.Search.Ingestion
