import Gfs.Mount.ListingCache

/-! Fetching the base tree's listings (`gfs-mount/src/prefetch.rs` and `base_listing` of
`gfs-mount/src/fs.rs`): single directories page by page, and whole subtrees ahead of a walk, by
tasks that share one listing cache. The answers are the pinned repository's, or refusals.
-/

namespace Gfs.Mount.Prefetch

open Gfs.Types
open Gfs.Mount.ListingCache
open Gfs.Lib

-- Recognizing a walk

/-- Two seconds, in milliseconds. -/
def walkWindow : Nat :=
  2000

/-- How far two paths agree, and the last slash before that. -/
def agreement : Bytes → Bytes → Nat → Nat → Nat × Nat
  | x :: a, y :: b, i, last =>
      if x = y then agreement a b (i + 1) (if x = slash then i else last) else (i, last)
  | _, _, i, last => (i, last)

/-- The longest path both arguments start with, on a component boundary. -/
def commonAncestor (a b : BytePath) : BytePath :=
  let (i, last) := agreement a b 0 0
  if i = a.length ∧ (i = b.length ∨ b[i]? = some slash) then a
  else if i = b.length ∧ a[i]? = some slash then b
  else a.take last

/-- Recognizes a directory tree being walked, by its recent listing misses. -/
structure WalkDetector where
  recent : List (BytePath × Nat)
  threshold : Nat

def WalkDetector.new (threshold : Nat) : WalkDetector where
  recent := []
  threshold := max threshold 2

/-- The subtree to fetch: the common ancestor of the misses. -/
def subtreeOf : List (BytePath × Nat) → Option BytePath
  | [] => none
  | (first, _) :: later =>
      some (later.foldl (fun root miss => commonAncestor root miss.1) first)

/-- Record a listing miss and, when the recent ones look like a walk, return the subtree. -/
def WalkDetector.observe (detector : WalkDetector) (dir : BytePath) (now : Nat)
    : Option BytePath × WalkDetector :=
  let recent :=
    detector.recent.filter (fun miss => decide (now - miss.2 < walkWindow)) ++ [(dir, now)]
  if recent.length < detector.threshold then (none, { detector with recent })
  else (subtreeOf recent, { detector with recent := [] })

/-- Whether a root contains a path: the same path, or anything below it. -/
def covers (root path : Bytes) : Bool :=
  root = []
  || (root.isPrefixOf path && (path.length == root.length || path[root.length]? == some slash))

/-- Detectors and running subtree fetches, by root and channel, for one pinned commit. A channel
that is closed is dropped from the map by whoever looks at it next.
-/
structure Prefetcher where
  walk : WalkDetector
  inflight : List (Bytes × Nat)
  truncated : List Bytes

namespace Prefetcher

def new (walkThreshold : Nat) : Prefetcher where
  walk := .new walkThreshold
  inflight := []
  truncated := []

/-- Claim a subtree, unless one covering it is running or a walk in it hit its bound. -/
def claim (prefetcher : Prefetcher) (root : BytePath) (channel : Nat) : Option Prefetcher :=
  if prefetcher.truncated.any (fun done => covers root done) then none
  else if prefetcher.inflight.any (fun existing => covers existing.1 root) then none
  else some { prefetcher with inflight := (root, channel) :: prefetcher.inflight }

def markTruncated (prefetcher : Prefetcher) (root : BytePath) : Prefetcher :=
  { prefetcher with truncated := prefetcher.truncated ++ [root] }

def release (prefetcher : Prefetcher) (root : BytePath) : Prefetcher :=
  { prefetcher with
    inflight := prefetcher.inflight.filter (fun existing => decide (existing.1 ≠ root)) }

end Prefetcher

-- A page's listings

/-- One entry into the bucket of its directory, if the page names that. -/
def pushEntry (buckets : AList fun _ : Bytes => List Git.TreeEntryInfo)
    (entry : Git.TreeEntryInfo)
    : AList fun _ : Bytes => List Git.TreeEntryInfo :=
  match buckets.lookup (parentOf entry.path) with
  | some bucket => buckets.insert (parentOf entry.path) (bucket ++ [entry])
  | none => buckets

/-- Each directory of a page with its bucket, which is taken once. -/
def takeBuckets
    : List BytePath
      → (AList fun _ : Bytes => List Git.TreeEntryInfo)
      → List (BytePath × ListingCache.Listing)
  | [], _ => []
  | dir :: directories, buckets =>
      match buckets.lookup dir with
      | some entries => (dir, .new entries) :: takeBuckets directories (buckets.erase dir)
      | none => takeBuckets directories buckets

/-- The listings that `install` inserts, in its order. -/
def installed (entries : List Git.TreeEntryInfo) (directories : List BytePath)
    : List (BytePath × ListingCache.Listing) :=
  takeBuckets directories
    (entries.foldl pushEntry (directories.foldl (fun buckets dir => buckets.insert dir []) ∅))

-- The tasks

/-- The configuration, as far as listings depend on it. -/
structure Config where
  capacityDirs : Nat
  capacityEntries : Nat
  walkPrefetchThreshold : Nat
  treePageEntries : Nat
  treeMaxEntries : Nat
  directoryPageSize : Nat

def Config.capacity (config : Config) : Capacity :=
  .new config.capacityDirs config.capacityEntries

/-- What is shared by the tasks of one pin; `channels` counts those that were opened. -/
structure Pinned where
  listings : Slots
  prefetch : Prefetcher
  channels : Nat

/-- How far a `base_listing` call is. -/
inductive Reader where
  | asked (dir : BytePath)
  | missed (dir : BytePath)
  | waiting (dir : BytePath) (channel : Nat)
  | uncovered (dir : BytePath)
  | claimed (dir root : BytePath) (channel : Nat)
  | fetching (dir : BytePath) (token : Bytes) (entries : List Git.TreeEntryInfo)

/-- Whether a subtree fetch waits for a page, or has one to install. -/
inductive Stage where
  | asking (token : Bytes)
  | installing (pending : List (BytePath × ListingCache.Listing)) (token : Bytes)

/-- A task of `spawn_subtree`. -/
structure Subtree where
  root : BytePath
  fetched : Nat
  stage : Stage

/-- `page_limit`: zero asks for the default. -/
def pageLimit (requested default_ maximum : Nat) : Nat :=
  if requested = 0 then default_ else min requested maximum

def defaultDirectoryPageSize : Nat := 1000

def defaultTreePageEntries : Nat := 10000

/-- The empty token asks for the first page. -/
def pageAfter (token : Bytes) : Option Bytes :=
  if token = [] then none else some token

section Tasks

variable (repo : Git.Repository) (commit : ObjectId) (config : Config)

def listDirectoryPage (dir : BytePath) (token : Bytes) : Except GfsError Git.DirectoryPage :=
  repo.listDirectory commit dir (pageAfter token)
    (pageLimit config.directoryPageSize defaultDirectoryPageSize Git.maxDirectoryPageSize)

def listTreePage (root : BytePath) (token : Bytes) : Except GfsError Git.TreePage :=
  repo.listTree commit root (pageAfter token)
    (pageLimit config.treePageEntries defaultTreePageEntries Git.maxTreePageEntries)

/-- One step of a `base_listing` call, which ends in no reader. -/
inductive Reads : Pinned → Reader → Pinned → Option Reader → Prop where
  | hit {pinned : Pinned} {dir : BytePath} {listing : ListingCache.Listing} {listings : Slots}
      (found : pinned.listings.get dir = (some listing, listings))
      : Reads pinned (.asked dir) { pinned with listings } none
  | missed {pinned : Pinned} {dir : BytePath} {listings : Slots}
      (absent : pinned.listings.get dir = (none, listings))
      : Reads pinned (.asked dir) { pinned with listings } (some (.missed dir))
  | covered {pinned : Pinned} {dir : BytePath} {root : Bytes} {channel : Nat}
      (running : (root, channel) ∈ pinned.prefetch.inflight) (inside : covers root dir = true)
      : Reads pinned (.missed dir) pinned (some (.waiting dir channel))
  | uncovered {pinned : Pinned} {dir : BytePath}
      (outside : ∀ existing ∈ pinned.prefetch.inflight, covers existing.1 dir = false)
      : Reads pinned (.missed dir) pinned (some (.uncovered dir))
  | arrived {pinned : Pinned} {dir : BytePath} {channel : Nat} {listing : ListingCache.Listing}
      {listings : Slots} (found : pinned.listings.get dir = (some listing, listings))
      : Reads pinned (.waiting dir channel) { pinned with listings } none
  | waited {pinned : Pinned} {dir : BytePath} {channel : Nat} {listings : Slots}
      (absent : pinned.listings.get dir = (none, listings))
      : Reads pinned (.waiting dir channel) { pinned with listings } (some (.waiting dir channel))
  -- The channel is closed: its task ended, or died.
  | closed {pinned : Pinned} {dir : BytePath} {channel : Nat} {listings : Slots}
      (absent : pinned.listings.get dir = (none, listings))
      (ended : channel ∉ pinned.prefetch.inflight.map Prod.snd)
      : Reads pinned (.waiting dir channel) { pinned with listings } (some (.uncovered dir))
  | unwatched {pinned : Pinned} {dir : BytePath} (off : config.walkPrefetchThreshold = 0)
      : Reads pinned (.uncovered dir) pinned (some (.fetching dir [] []))
  | noted {pinned : Pinned} {dir : BytePath} {now : Nat} {walk : WalkDetector}
      (on : 0 < config.walkPrefetchThreshold)
      (observed : pinned.prefetch.walk.observe dir now = (none, walk))
      : Reads pinned (.uncovered dir) { pinned with prefetch := { pinned.prefetch with walk } }
          (some (.fetching dir [] []))
  | declined {pinned : Pinned} {dir root : BytePath} {now : Nat} {walk : WalkDetector}
      (on : 0 < config.walkPrefetchThreshold)
      (observed : pinned.prefetch.walk.observe dir now = (some root, walk))
      (refused : pinned.prefetch.claim root pinned.channels = none)
      : Reads pinned (.uncovered dir) { pinned with prefetch := { pinned.prefetch with walk } }
          (some (.fetching dir [] []))
  | claims {pinned : Pinned} {dir root : BytePath} {now : Nat} {walk : WalkDetector}
      {prefetch : Prefetcher} (on : 0 < config.walkPrefetchThreshold)
      (observed : pinned.prefetch.walk.observe dir now = (some root, walk))
      (claimed
        : Prefetcher.claim { pinned.prefetch with walk } root pinned.channels = some prefetch)
      : Reads pinned (.uncovered dir)
          { pinned with prefetch, channels := pinned.channels + 1 }
          (some (.claimed dir root pinned.channels))
  | page {pinned : Pinned} {dir : BytePath} {token : Bytes} {entries : List Git.TreeEntryInfo}
      {page : Git.DirectoryPage}
      (listed : listDirectoryPage repo commit config dir token = .ok page)
      (more : page.nextPageToken.getD [] ≠ [])
      : Reads pinned (.fetching dir token entries) pinned
          (some (.fetching dir (page.nextPageToken.getD []) (entries ++ page.entries)))
  | last {pinned : Pinned} {dir : BytePath} {token : Bytes} {entries : List Git.TreeEntryInfo}
      {page : Git.DirectoryPage} {listings : Slots}
      (listed : listDirectoryPage repo commit config dir token = .ok page)
      (more : page.nextPageToken.getD [] = [])
      (inserted
        : pinned.listings.insert config.capacity dir (.new (entries ++ page.entries))
          = some listings)
      : Reads pinned (.fetching dir token entries) { pinned with listings } none
  | failed {pinned : Pinned} {dir : BytePath} {token : Bytes} {entries : List Git.TreeEntryInfo}
      : Reads pinned (.fetching dir token entries) pinned none

/-- One step of a subtree fetch, which ends in no task. -/
inductive Fetches : Pinned → Subtree → Pinned → Option Subtree → Prop where
  | page {pinned : Pinned} {root : BytePath} {fetched : Nat} {token : Bytes} {page : Git.TreePage}
      (listed : listTreePage repo commit config root token = .ok page)
      : Fetches pinned ⟨root, fetched, .asking token⟩ pinned
          (some ⟨root, fetched + page.entries.length,
            .installing (installed page.entries page.directories) (page.nextPageToken.getD [])⟩)
  | refused {pinned : Pinned} {root : BytePath} {fetched : Nat} {token : Bytes}
      : Fetches pinned ⟨root, fetched, .asking token⟩
          { pinned with prefetch := pinned.prefetch.release root } none
  | installs {pinned : Pinned} {root dir : BytePath} {fetched : Nat}
      {listing : ListingCache.Listing} {pending : List (BytePath × ListingCache.Listing)}
      {token : Bytes} {listings : Slots}
      (inserted : pinned.listings.insert config.capacity dir listing = some listings)
      : Fetches pinned ⟨root, fetched, .installing ((dir, listing) :: pending) token⟩
          { pinned with listings } (some ⟨root, fetched, .installing pending token⟩)
  | goesOn {pinned : Pinned} {root : BytePath} {fetched : Nat} {token : Bytes} (more : token ≠ [])
      (within : fetched < config.treeMaxEntries)
      : Fetches pinned ⟨root, fetched, .installing [] token⟩ pinned
          (some ⟨root, fetched, .asking token⟩)
  | complete {pinned : Pinned} {root : BytePath} {fetched : Nat}
      : Fetches pinned ⟨root, fetched, .installing [] []⟩
          { pinned with prefetch := pinned.prefetch.release root } none
  | truncated {pinned : Pinned} {root : BytePath} {fetched : Nat} {token : Bytes}
      (more : token ≠ []) (full : config.treeMaxEntries ≤ fetched)
      : Fetches pinned ⟨root, fetched, .installing [] token⟩
          { pinned with prefetch := (pinned.prefetch.markTruncated root).release root } none
  -- A task that dies closes its channel, at whatever stage it is.
  | died {pinned : Pinned} {task : Subtree}
      : Fetches pinned task { pinned with prefetch := pinned.prefetch.release task.root } none

/-- One pin with every task that runs on it. -/
structure State where
  pinned : Pinned
  readers : List Reader
  subtrees : List Subtree

def State.new : State where
  pinned := ⟨.new, .new config.walkPrefetchThreshold, 0⟩
  readers := []
  subtrees := []

/-- One step of one task, a new one, or a lookup that fetches nothing. -/
inductive Step : State → State → Prop where
  | look {pinned : Pinned} {dir : BytePath} {readers : List Reader} {subtrees : List Subtree}
      : Step ⟨pinned, readers, subtrees⟩
          ⟨{ pinned with listings := (pinned.listings.get dir).2 }, readers, subtrees⟩
  | ask {s : State} {dir : BytePath} (valid : dir.validate = .ok ())
      : Step s { s with readers := .asked dir :: s.readers }
  | read {pinned pinned' : Pinned} {front back : List Reader} {reader : Reader}
      {next : Option Reader} {subtrees : List Subtree}
      (reads : Reads repo commit config pinned reader pinned' next)
      : Step ⟨pinned, front ++ reader :: back, subtrees⟩
          ⟨pinned', front ++ next.toList ++ back, subtrees⟩
  | spawn {pinned : Pinned} {front back : List Reader} {dir root : BytePath} {channel : Nat}
      {subtrees : List Subtree}
      : Step ⟨pinned, front ++ .claimed dir root channel :: back, subtrees⟩
          ⟨pinned, front ++ .fetching dir [] [] :: back, ⟨root, 0, .asking []⟩ :: subtrees⟩
  | fetch {pinned pinned' : Pinned} {front back : List Subtree} {task : Subtree}
      {next : Option Subtree} {readers : List Reader}
      (fetches : Fetches repo commit config pinned task pinned' next)
      : Step ⟨pinned, readers, front ++ task :: back⟩
          ⟨pinned', readers, front ++ next.toList ++ back⟩

/-- What a pin comes to by any interleaving of its tasks. -/
def Reachable (s : State) : Prop :=
  Relation.ReflTransGen (Step repo commit config) (State.new config) s

end Tasks

-- Where a subtree is fetched

/-- The last slash before two paths part is one of the first path, if there is any. -/
theorem agreement_slash (front a b : Bytes) {last : Nat}
    (slash_ : last = 0 ∨ (front ++ a)[last]? = some slash)
    : (agreement a b front.length last).2 = 0
      ∨ (front ++ a)[(agreement a b front.length last).2]? = some slash := by
  induction a generalizing front b last with
  | nil => simpa [agreement] using slash_
  | cons x a ih =>
      cases b with
      | nil => simpa [agreement] using slash_
      | cons y b =>
          rw [agreement]
          split
          · have step := @ih (front ++ [x]) b (if x = slash then front.length else last) (by
              rw [List.append_assoc, List.singleton_append]
              split
              · rename_i here
                exact .inr (by simp [here])
              · exact slash_)
            rw [List.length_append, List.append_assoc, List.singleton_append] at step
            exact step
          · exact slash_

theorem isDirPath_take {path : BytePath} (isDir : IsDirPath path) {last : Nat}
    (slash_ : last = 0 ∨ path[last]? = some slash)
    : IsDirPath (path.take last) := by
  rcases slash_ with rfl | slash_
  · exact .inl rfl
  · obtain ⟨bound, here⟩ := List.getElem?_eq_some_iff.mp slash_
    have whole : path = path.take last ++ slash :: path.drop (last + 1) := by
      conv_lhs => rw [← List.take_append_drop last path, List.drop_eq_getElem_cons bound, here]
    rcases isDir with rfl | formed
    · simp at bound
    · rw [whole] at formed
      exact .inr (wellFormed_append.mp formed).1

theorem isDirPath_commonAncestor {a b : BytePath} (left : IsDirPath a) (right : IsDirPath b)
    : IsDirPath (commonAncestor a b) := by
  unfold commonAncestor
  dsimp only
  split
  · exact left
  · split
    · exact right
    · exact isDirPath_take left (by simpa using agreement_slash [] a b (.inl rfl))

theorem isDirPath_subtreeOf {recent : List (BytePath × Nat)} {root : BytePath}
    (dirs : ∀ miss ∈ recent, IsDirPath miss.1) (found : subtreeOf recent = some root)
    : IsDirPath root := by
  cases recent with
  | nil => cases found
  | cons first later =>
      cases found
      obtain ⟨here, others⟩ := List.forall_mem_cons.mp dirs
      clear dirs
      generalize first.1 = start at here
      induction later generalizing start with
      | nil => exact here
      | cons next later ih =>
          obtain ⟨second, others⟩ := List.forall_mem_cons.mp others
          exact ih others (commonAncestor start next.1) (isDirPath_commonAncestor here second)

theorem WalkDetector.observe_dirs {detector walk : WalkDetector} {dir : BytePath} {now : Nat}
    {found : Option BytePath} (dirs : ∀ miss ∈ detector.recent, IsDirPath miss.1)
    (isDir : IsDirPath dir) (observed : detector.observe dir now = (found, walk))
    : (∀ miss ∈ walk.recent, IsDirPath miss.1) ∧ ∀ root, found = some root → IsDirPath root := by
  have kept
      : ∀ miss
          ∈ detector.recent.filter (fun miss => decide (now - miss.2 < walkWindow))
            ++ [(dir, now)],
        IsDirPath miss.1 := by
    intro miss member
    rcases List.mem_append.mp member with earlier | this
    · exact dirs miss (List.mem_filter.mp earlier).1
    · rw [List.mem_singleton.mp this]
      exact isDir
  rw [WalkDetector.observe] at observed
  split at observed
  · cases observed
    exact ⟨kept, nofun⟩
  · cases observed
    exact ⟨nofun, fun root found => isDirPath_subtreeOf kept found⟩

-- A directory page by page

section Fetched

variable {repo : Git.Repository} {commit : ObjectId} {config : Config} {dir : BytePath}

/-- What a directory's entries are told as. -/
abbrev told (repo : Git.Repository) (commit : ObjectId) (dir : BytePath)
    (entries : List Git.DecodedEntry)
    : Except GfsError (List Git.TreeEntryInfo) :=
  entries.mapM (fun entry => repo.entryInfo commit (dir.join entry.name) entry)

/-- The entries fetched of a directory are those before the token. -/
def Fetched (repo : Git.Repository) (commit : ObjectId) (dir : BytePath) (token : Bytes)
    (entries : List Git.TreeEntryInfo)
    : Prop :=
  token = [] ∧ entries = []
  ∨ token ≠ []
    ∧ ∃ tree before,
        repo.db.directoryTree commit dir = .ok (some tree)
        ∧ before ++ tree.remaining (some token) = tree.entries
        ∧ told repo commit dir before = .ok entries

theorem directoryLimit_pos (requested : Nat)
    : 0 < min (max (pageLimit requested defaultDirectoryPageSize Git.maxDirectoryPageSize) 1)
        Git.maxDirectoryPageSize := by
  rw [Git.maxDirectoryPageSize]
  omega

theorem page_token_ne_nil {object : Git.TreeObject} {after : Option Bytes} {limit : Nat}
    {token : Bytes} (more : ((Git.DecodedTree.new object).page after limit).2 = some token)
    : token ≠ [] := by
  rw [Git.DecodedTree.page_eq] at more
  split at more
  · obtain ⟨entry, last, rfl⟩ := Option.map_eq_some_iff.mp more
    have listed : entry ∈ (Git.DecodedTree.new object).entries := by
      have member := List.mem_of_mem_take (List.mem_of_getLast? last)
      rw [Git.DecodedTree.remaining_eq_drop] at member
      exact List.mem_of_mem_drop member
    have named := object.named entry (Git.DecodedTree.mem_new.mp listed)
    rw [Git.DecodedEntry.sortKey, Git.sortKey]
    split
    · exact List.append_ne_nil_of_right_ne_nil _ (List.cons_ne_nil _ _)
    · exact named.1
  · cases more

theorem Fetched.before {token : Bytes} {entries : List Git.TreeEntryInfo}
    (fetched : Fetched repo commit dir token entries) {tree : Git.DecodedTree}
    (read : repo.db.directoryTree commit dir = .ok (some tree))
    : ∃ before,
        before ++ tree.remaining (pageAfter token) = tree.entries
        ∧ told repo commit dir before = .ok entries := by
  rcases fetched with ⟨rfl, rfl⟩ | ⟨nonempty, tree', before, read', whole, sofar⟩
  · exact ⟨[], rfl, rfl⟩
  · cases read.symm.trans read'
    rw [pageAfter, if_neg nonempty]
    exact ⟨before, whole, sofar⟩

theorem told_append {first second : List Git.DecodedEntry} {infos more : List Git.TreeEntryInfo}
    (front : told repo commit dir first = .ok infos)
    (back : told repo commit dir second = .ok more)
    : told repo commit dir (first ++ second) = .ok (infos ++ more) := by
  rw [told] at front back
  rw [told, List.mapM_append, front, back]
  rfl

/-- A page brings a fetch on, and the last one completes the directory. -/
theorem Fetched.page {token : Bytes} {entries : List Git.TreeEntryInfo}
    (fetched : Fetched repo commit dir token entries) {page : Git.DirectoryPage}
    (listed : listDirectoryPage repo commit config dir token = .ok page)
    : (page.nextPageToken.getD [] ≠ []
        → Fetched repo commit dir (page.nextPageToken.getD []) (entries ++ page.entries))
      ∧ (page.nextPageToken.getD [] = []
        → Git.Lists repo commit (dir, entries ++ page.entries)) := by
  rw [listDirectoryPage, Git.Repository.listDirectory] at listed
  obtain ⟨found, read, listed⟩ := bind_eq_ok.mp listed
  cases found with
  | none =>
      cases listed
      refine ⟨fun more => absurd rfl more, fun _ => .inl ⟨read, ?_⟩⟩
      rcases fetched with ⟨-, rfl⟩ | ⟨-, tree, before, read', -⟩
      · rfl
      · cases read.symm.trans read'
  | some tree =>
      obtain ⟨before, whole, sofar⟩ := fetched.before read
      obtain ⟨-, object, -, -, rfl⟩ := (Git.leads_of_directoryTree read).oid
      have advances := @Git.DecodedTree.page_advances object (pageAfter token) _
        (directoryLimit_pos config.directoryPageSize)
      dsimp only at listed
      generalize given : (Git.DecodedTree.new object).page (pageAfter token) _ = answer
        at listed advances
      obtain ⟨front, next⟩ := answer
      obtain ⟨infos, shown, listed⟩ := bind_eq_ok.mp listed
      cases listed
      have both := told_append sofar shown
      cases next with
      | none =>
          refine ⟨fun more => absurd rfl more, fun _ => .inr ⟨_, read, ?_⟩⟩
          rw [← whole, ← (advances : front = _)]
          exact both
      | some token' =>
          have nonempty := page_token_ne_nil (congrArg Prod.snd given)
          refine ⟨fun _ => .inr ⟨nonempty, _, before ++ front, read, ?_, both⟩,
            fun last => absurd last nonempty⟩
          rw [List.append_assoc]
          exact (congrArg (before ++ ·) advances.1).trans whole

end Fetched

-- What a complete listing tells

section Complete

variable {repo : Git.Repository} {commit : ObjectId} {dir : BytePath}

variable {infos : List Git.TreeEntryInfo}

theorem told_names {tree : Git.DecodedTree} (isDir : IsDirPath dir)
    (read : repo.db.directoryTree commit dir = .ok (some tree))
    (shown : told repo commit dir tree.entries = .ok infos)
    : List.Forall₂
        (fun entry info =>
          repo.entryInfo commit (dir.join entry.name) entry = .ok info
          ∧ nameOf info = entry.name
          ∧ parentOf info.path = dir)
        tree.entries infos := by
  obtain ⟨-, object, -, -, rfl⟩ := (Git.leads_of_directoryTree read).oid
  have named : ∀ entry ∈ (Git.DecodedTree.new object).entries, IsComponent entry.name :=
    fun entry member => object.named entry (Git.DecodedTree.mem_new.mp member)
  refine ((List.forall₂_and_left _ _).mpr ⟨named, Lib.Mapped.mapM_eq_ok.mp shown⟩).imp ?_
  rintro entry info ⟨component, one⟩
  have path := (Git.entryInfo_ok one).1
  obtain ⟨parent, name⟩ := isDir.split_join component
  exact ⟨one, by rw [nameOf, path, name], by rw [path, parent]⟩

theorem parentOf_of_lists (isDir : IsDirPath dir) (lists : Git.Lists repo commit (dir, infos))
    : ∀ info ∈ infos, parentOf info.path = dir := by
  intro info member
  rcases lists with ⟨-, empty⟩ | ⟨tree, read, shown⟩
  · cases empty
    cases member
  · obtain ⟨entry, -, -, -, parent⟩ :=
      Lib.Mapped.exists_of_forall₂_right (told_names isDir read shown) member
    exact parent

theorem nodup_of_lists (isDir : IsDirPath dir) (lists : Git.Lists repo commit (dir, infos))
    : (infos.map nameOf).Nodup := by
  rcases lists with ⟨-, empty⟩ | ⟨tree, read, shown⟩
  · cases empty
    exact List.nodup_nil
  · have names : tree.entries.map Git.DecodedEntry.name = infos.map nameOf :=
      List.forall₂_eq_eq_eq ▸ (List.forall₂_map_left_iff.mpr
        (List.forall₂_map_right_iff.mpr
          ((told_names isDir read shown).imp fun _ _ both => both.2.1.symm)))
    obtain ⟨-, object, -, -, rfl⟩ := (Git.leads_of_directoryTree read).oid
    rw [← names]
    exact ((List.mergeSort_perm object.entries Git.inTreeOrder).map
      Git.DecodedEntry.name).nodup_iff.mpr object.unique

/-- A name is found in a listing where its entry is found in the tree. -/
theorem find_told {entries : List Git.DecodedEntry}
    (shown
      : List.Forall₂
          (fun entry info =>
            repo.entryInfo commit (dir.join entry.name) entry = .ok info
            ∧ nameOf info = entry.name
            ∧ parentOf info.path = dir)
          entries infos)
    (name : Bytes)
    : (match entries.find? (fun entry => entry.name = name) with
        | none => Except.ok none
        | some entry => (repo.entryInfo commit (dir.join name) entry).map some)
      = Except.ok (infos.find? (fun info => nameOf info = name)) := by
  induction shown with
  | nil => rfl
  | @cons entry info entries infos both rest ih =>
      rw [List.find?_cons, List.find?_cons, both.2.1]
      by_cases same : entry.name = name
      · subst same
        rw [decide_eq_true rfl]
        dsimp only
        rw [both.1]
        rfl
      · rw [decide_eq_false same]
        exact ih

theorem entry_of_lists (isDir : IsDirPath dir) (lists : Git.Lists repo commit (dir, infos))
    {name : Bytes} (component : IsComponent name)
    : repo.entry commit (dir.join name) = .ok ((ListingCache.Listing.new infos).get name) := by
  rw [get_new (nodup_of_lists isDir lists), Git.Repository.entry,
    if_neg (Git.join_ne_nil component)]
  rcases lists with ⟨empty, none_⟩ | ⟨tree, read, shown⟩
  · cases none_
    rw [Git.walkToParent_gitlink empty component]
    rfl
  · rw [(Git.leads_of_directoryTree read).walkToParent component]
    exact find_told (told_names isDir read shown) name

end Complete

-- A page of a subtree

section Buckets

/-- A bucket takes the entries of its directory, in their order. -/
theorem lookup_pushEntries (entries : List Git.TreeEntryInfo)
    (buckets : AList fun _ : Bytes => List Git.TreeEntryInfo) (dir : BytePath)
    : (entries.foldl pushEntry buckets).lookup dir
      = (buckets.lookup dir).map
          (· ++ entries.filter (fun entry => decide (parentOf entry.path = dir))) := by
  induction entries generalizing buckets with
  | nil => simp
  | cons entry entries ih =>
      rw [List.foldl_cons, ih, pushEntry]
      cases found : buckets.lookup (parentOf entry.path) with
      | none =>
          by_cases same : parentOf entry.path = dir
          · rw [← same, found]
            rfl
          · rw [List.filter_cons_of_neg (by simpa using same)]
      | some bucket =>
          dsimp only
          rw [Tallies.lookup_insert]
          by_cases same : parentOf entry.path = dir
          · rw [if_pos same.symm, ← same, found, List.filter_cons_of_pos (by simp)]
            simp
          · rw [if_neg (fun same' => same same'.symm),
              List.filter_cons_of_neg (by simpa using same)]

theorem lookup_emptyBuckets (directories : List BytePath)
    (buckets : AList fun _ : Bytes => List Git.TreeEntryInfo) (dir : BytePath)
    (empty : ∀ bucket, buckets.lookup dir = some bucket → bucket = [])
    : ∀ bucket,
        (directories.foldl (fun buckets dir => buckets.insert dir []) buckets).lookup dir
          = some bucket
        → bucket = [] := by
  induction directories generalizing buckets with
  | nil => exact empty
  | cons first directories ih =>
      apply ih
      intro bucket found
      rw [Tallies.lookup_insert] at found
      split at found
      · cases found
        rfl
      · exact empty bucket found

/-- What is taken for a directory was in its bucket. -/
theorem mem_takeBuckets {directories : List BytePath}
    {buckets : AList fun _ : Bytes => List Git.TreeEntryInfo} {dir : BytePath}
    {listing : ListingCache.Listing}
    (taken : (dir, listing) ∈ takeBuckets directories buckets)
    : dir ∈ directories
      ∧ ∃ entries, buckets.lookup dir = some entries ∧ listing = .new entries := by
  induction directories generalizing buckets with
  | nil => cases taken
  | cons first directories ih =>
      rw [takeBuckets] at taken
      split at taken
      · rename_i entries found
        rcases List.mem_cons.mp taken with same | later
        · cases same
          exact ⟨List.mem_cons_self, entries, found, rfl⟩
        · obtain ⟨member, entries, found, rfl⟩ := ih later
          rw [Tallies.lookup_erase] at found
          split at found
          · cases found
          · exact ⟨List.mem_cons_of_mem _ member, entries, found, rfl⟩
      · obtain ⟨member, rest⟩ := ih taken
        exact ⟨List.mem_cons_of_mem _ member, rest⟩

theorem mem_installed {entries : List Git.TreeEntryInfo} {directories : List BytePath}
    {dir : BytePath} {listing : ListingCache.Listing}
    (member : (dir, listing) ∈ installed entries directories)
    : dir ∈ directories
      ∧ listing = .new (entries.filter (fun entry => decide (parentOf entry.path = dir))) := by
  obtain ⟨named, bucket, found, rfl⟩ := mem_takeBuckets member
  refine ⟨named, ?_⟩
  rw [lookup_pushEntries, Option.map_eq_some_iff] at found
  obtain ⟨start, empty, rfl⟩ := found
  rw [lookup_emptyBuckets directories ∅ dir nofun start empty, List.nil_append]

/-- The entries that lie in a directory are those of its visit, where no directory comes twice and
the entries of each lie in it.
-/
theorem filter_visits {visits : List Git.Visit} (once : (visits.map Prod.fst).Nodup)
    (inside : ∀ visit ∈ visits, ∀ info ∈ visit.2, parentOf info.path = visit.1)
    {visit : Git.Visit} (member : visit ∈ visits)
    : (visits.flatMap Prod.snd).filter (fun info => decide (parentOf info.path = visit.1))
      = visit.2 := by
  have others
      : ∀ rest : List Git.Visit, visit.1 ∉ rest.map Prod.fst
        → (∀ other ∈ rest, ∀ info ∈ other.2, parentOf info.path = other.1)
        → (rest.flatMap Prod.snd).filter (fun info => decide (parentOf info.path = visit.1))
          = [] := by
    intro rest absent inside
    rw [List.filter_eq_nil_iff]
    intro info listed same
    obtain ⟨other, later, listed⟩ := List.mem_flatMap.mp listed
    rw [decide_eq_true_eq, inside other later info listed] at same
    exact absent (same ▸ List.mem_map_of_mem later)
  have own : ∀ infos : List Git.TreeEntryInfo, (∀ info ∈ infos, parentOf info.path = visit.1)
      → infos.filter (fun info => decide (parentOf info.path = visit.1)) = infos := by
    intro infos here
    exact List.filter_eq_self.mpr (fun info listed => decide_eq_true (here info listed))
  obtain ⟨front, back, rfl⟩ := List.append_of_mem member
  rw [List.map_append, List.map_cons, List.nodup_middle, List.nodup_cons, List.mem_append,
    not_or] at once
  obtain ⟨before, here, after⟩ : (∀ other ∈ front, ∀ info ∈ other.2, parentOf info.path = other.1)
      ∧ (∀ info ∈ visit.2, parentOf info.path = visit.1)
      ∧ ∀ other ∈ back, ∀ info ∈ other.2, parentOf info.path = other.1 := by
    refine ⟨fun other listed => inside other (List.mem_append_left _ listed), inside visit member,
      fun other listed => inside other (List.mem_append_right _ (List.mem_cons_of_mem _ listed))⟩
  rw [List.flatMap_append, List.flatMap_cons, List.filter_append, List.filter_append,
    others front once.1.1 before, others back once.1.2 after, own visit.2 here, List.nil_append,
    List.append_nil]

end Buckets

/-- A listing is all that a directory lists. -/
structure Complete (repo : Git.Repository) (commit : ObjectId) (dir : BytePath)
    (listing : ListingCache.Listing)
    : Prop where
  isDir : IsDirPath dir
  lists
    : ∃ infos, listing = .new infos ∧ Git.Lists repo commit (dir, infos)

/-- Every listing that is installed of a page is complete. -/
theorem complete_of_page {repo : Git.Repository} {commit : ObjectId} {config : Config}
    {root : BytePath} {token : Bytes} {page : Git.TreePage} (isDir : IsDirPath root)
    (listed : listTreePage repo commit config root token = .ok page) {dir : BytePath}
    {listing : ListingCache.Listing}
    (member : (dir, listing) ∈ installed page.entries page.directories)
    : Complete repo commit dir listing := by
  obtain ⟨visits, entries, directories, whole⟩ :=
    Git.whole_of_listTreeFrom listed (List.pairwise_singleton _ _)
  rw [List.nil_append] at entries directories
  have dirs : ∀ visit ∈ visits, IsDirPath visit.1 := by
    intro visit member
    obtain ⟨start, here, below⟩ := whole.below visit member
    rw [List.mem_singleton.mp here] at below
    exact below.isDirPath isDir
  obtain ⟨named, rfl⟩ := mem_installed member
  rw [directories] at named
  obtain ⟨visit, visited, rfl⟩ := List.mem_map.mp named
  refine ⟨dirs visit visited, _, rfl, ?_⟩
  rw [entries, filter_visits whole.once
    (fun other listed => parentOf_of_lists (dirs other listed) (whole.complete other listed))
    visited]
  exact whole.complete visit visited

-- Every interleaving

/-- What a call works on is a directory, and what it has fetched of it is there. -/
def Reader.Sound (repo : Git.Repository) (commit : ObjectId) : Reader → Prop
  | .asked dir | .missed dir | .waiting dir _ | .uncovered dir => IsDirPath dir
  | .claimed dir root _ => IsDirPath dir ∧ IsDirPath root
  | .fetching dir token entries => IsDirPath dir ∧ Fetched repo commit dir token entries

/-- A subtree fetch goes down a directory, and what it still has to install is complete. -/
structure Subtree.Sound (repo : Git.Repository) (commit : ObjectId) (task : Subtree) : Prop where
  isDir : IsDirPath task.root
  pending
    : ∀ pending token, task.stage = .installing pending token
        → ∀ next ∈ pending, Complete repo commit next.1 next.2

/-- The cache is tidy and within its bounds, and all that it holds is complete. -/
structure Pinned.Sound (repo : Git.Repository) (commit : ObjectId) (config : Config)
    (pinned : Pinned)
    : Prop where
  tidy : pinned.listings.Tidy
  fits : pinned.listings.Fits config.capacity
  held : ∀ dir listing, pinned.listings.held dir = some listing → Complete repo commit dir listing
  missed : ∀ miss ∈ pinned.prefetch.walk.recent, IsDirPath miss.1

structure State.Sound (repo : Git.Repository) (commit : ObjectId) (config : Config) (s : State)
    : Prop where
  pinned : s.pinned.Sound repo commit config
  readers : ∀ reader ∈ s.readers, reader.Sound repo commit
  subtrees : ∀ task ∈ s.subtrees, task.Sound repo commit

section Runs

variable {repo : Git.Repository} {commit : ObjectId} {config : Config} {pinned pinned' : Pinned}

theorem Pinned.Sound.get (sound : pinned.Sound repo commit config) (dir : BytePath)
    : Pinned.Sound repo commit config
        { pinned with listings := (pinned.listings.get dir).2 } := by
  obtain ⟨-, tidy, held, len, entries⟩ := sound.tidy.get dir
  refine ⟨tidy, ?_, ?_, sound.missed⟩
  · rw [Slots.Fits, len, entries]
    exact sound.fits
  · intro other listing found
    rw [held] at found
    exact sound.held other listing found

theorem Pinned.Sound.insert (sound : pinned.Sound repo commit config) {dir : BytePath}
    {listing : ListingCache.Listing} (complete : Complete repo commit dir listing)
    {listings : Slots}
    (inserted : pinned.listings.insert config.capacity dir listing = some listings)
    : Pinned.Sound repo commit config { pinned with listings } := by
  obtain ⟨after, again, tidy, fits, held⟩ := sound.tidy.insert config.capacity dir listing
  cases inserted.symm.trans again
  refine ⟨tidy, fits, ?_, sound.missed⟩
  intro other kept found
  rcases held other kept found with ⟨rfl, rfl⟩ | before
  · exact complete
  · exact sound.held other kept before

/-- One step of a call keeps what is held complete. -/
theorem Reads.sound {reader : Reader} {next : Option Reader}
    (reads : Reads repo commit config pinned reader pinned' next)
    (sound : pinned.Sound repo commit config) (own : reader.Sound repo commit)
    : pinned'.Sound repo commit config ∧ ∀ after ∈ next, after.Sound repo commit := by
  have looked : ∀ {dir : BytePath} {answer : Option ListingCache.Listing} {listings : Slots},
      pinned.listings.get dir = (answer, listings)
      → Pinned.Sound repo commit config { pinned with listings } := by
    intro dir answer listings found
    have after := sound.get dir
    rwa [found] at after
  have noted : ∀ {dir : BytePath} {now : Nat} {answer : Option BytePath} {walk : WalkDetector},
      IsDirPath dir
      → pinned.prefetch.walk.observe dir now = (answer, walk)
      → Pinned.Sound repo commit config { pinned with prefetch := { pinned.prefetch with walk } }
        ∧ ∀ root, answer = some root → IsDirPath root := by
    intro dir now answer walk isDir observed
    obtain ⟨recent, root⟩ := WalkDetector.observe_dirs sound.missed isDir observed
    exact ⟨⟨sound.tidy, sound.fits, sound.held, recent⟩, root⟩
  cases reads with
  | hit found => exact ⟨looked found, nofun⟩
  | missed absent => exact ⟨looked absent, by rintro after ⟨⟩; exact own⟩
  | covered running inside => exact ⟨sound, by rintro after ⟨⟩; exact own⟩
  | uncovered outside => exact ⟨sound, by rintro after ⟨⟩; exact own⟩
  | arrived found => exact ⟨looked found, nofun⟩
  | waited absent => exact ⟨looked absent, by rintro after ⟨⟩; exact own⟩
  | closed absent ended => exact ⟨looked absent, by rintro after ⟨⟩; exact own⟩
  | unwatched off => exact ⟨sound, by rintro after ⟨⟩; exact ⟨own, .inl ⟨rfl, rfl⟩⟩⟩
  | noted on observed =>
      exact ⟨(noted own observed).1, by rintro after ⟨⟩; exact ⟨own, .inl ⟨rfl, rfl⟩⟩⟩
  | declined on observed refused =>
      exact ⟨(noted own observed).1, by rintro after ⟨⟩; exact ⟨own, .inl ⟨rfl, rfl⟩⟩⟩
  | @claims _ root _ walk prefetch on observed claimed =>
      obtain ⟨after, isDir⟩ := noted own observed
      have same : prefetch.walk = walk := by
        rw [Prefetcher.claim] at claimed
        split at claimed
        · cases claimed
        · split at claimed
          · cases claimed
          · cases claimed
            rfl
      refine ⟨⟨sound.tidy, sound.fits, sound.held, ?_⟩, ?_⟩
      · rw [show prefetch.walk = walk from same]
        exact after.missed
      · rintro next ⟨⟩
        exact ⟨own, isDir root rfl⟩
  | page listed more =>
      exact ⟨sound, by rintro after ⟨⟩; exact ⟨own.1, (own.2.page listed).1 more⟩⟩
  | last listed last inserted =>
      exact ⟨sound.insert ⟨own.1, _, rfl, (own.2.page listed).2 last⟩ inserted, nofun⟩
  | failed => exact ⟨sound, nofun⟩

/-- One step of a subtree fetch keeps what is held complete. -/
theorem Fetches.sound {task : Subtree} {next : Option Subtree}
    (fetches : Fetches repo commit config pinned task pinned' next)
    (sound : pinned.Sound repo commit config) (own : task.Sound repo commit)
    : pinned'.Sound repo commit config ∧ ∀ after ∈ next, after.Sound repo commit := by
  have released : ∀ prefetch : Prefetcher, prefetch.walk = pinned.prefetch.walk →
      Pinned.Sound repo commit config { pinned with prefetch } := by
    intro prefetch same
    exact ⟨sound.tidy, sound.fits, sound.held, by rw [same]; exact sound.missed⟩
  cases fetches with
  | page listed =>
      refine ⟨sound, ?_⟩
      rintro after ⟨⟩
      refine ⟨own.isDir, ?_⟩
      rintro pending token ⟨⟩ ⟨dir, listing⟩ member
      exact complete_of_page own.isDir listed member
  | refused => exact ⟨released _ rfl, nofun⟩
  | installs inserted =>
      obtain ⟨first, rest⟩ := List.forall_mem_cons.mp (own.pending _ _ rfl)
      refine ⟨sound.insert first inserted, ?_⟩
      rintro after ⟨⟩
      refine ⟨own.isDir, ?_⟩
      rintro pending token ⟨⟩
      exact rest
  | goesOn more within => exact ⟨sound, by rintro after ⟨⟩; exact ⟨own.isDir, nofun⟩⟩
  | complete => exact ⟨released _ rfl, nofun⟩
  | truncated more full => exact ⟨released _ rfl, nofun⟩
  | died => exact ⟨released _ rfl, nofun⟩

theorem forall_replaced {α : Type} {Sound : α → Prop} {front back : List α} {task : α}
    {next : Option α} (all : ∀ other ∈ front ++ task :: back, Sound other)
    (own : ∀ after ∈ next, Sound after)
    : ∀ other ∈ front ++ next.toList ++ back, Sound other := by
  intro other member
  rcases List.mem_append.mp member with member | later
  · rcases List.mem_append.mp member with earlier | this
    · exact all other (List.mem_append_left _ earlier)
    · exact own other (Option.mem_toList.mp this)
  · exact all other (List.mem_append_right _ (List.mem_cons_of_mem _ later))

theorem sound_new : (State.new config).Sound repo commit config where
  pinned := {
    tidy := Slots.tidy_new
    fits := ⟨Nat.zero_le _, Nat.zero_le _⟩
    held := nofun
    missed := nofun
  }
  readers := nofun
  subtrees := nofun

/-- One step of one task keeps all that is held complete. -/
theorem Step.sound {s s' : State} (step : Step repo commit config s s')
    (sound : s.Sound repo commit config)
    : s'.Sound repo commit config := by
  cases step with
  | @look pinned dir readers subtrees =>
      exact ⟨sound.pinned.get dir, sound.readers, sound.subtrees⟩
  | ask valid =>
      exact ⟨sound.pinned,
        List.forall_mem_cons.mpr ⟨isDirPath_of_validate valid, sound.readers⟩, sound.subtrees⟩
  | @read pinned pinned' front back reader next subtrees reads =>
      obtain ⟨shared, own⟩ := reads.sound sound.pinned
        (sound.readers reader (List.mem_append_right _ List.mem_cons_self))
      exact ⟨shared, forall_replaced sound.readers own, sound.subtrees⟩
  | @spawn pinned front back dir root channel subtrees =>
      have own : Reader.Sound repo commit (.claimed dir root channel) :=
        sound.readers _ (List.mem_append_right _ List.mem_cons_self)
      refine ⟨sound.pinned, ?_, List.forall_mem_cons.mpr ⟨⟨own.2, nofun⟩, sound.subtrees⟩⟩
      have fetching : Reader.Sound repo commit (.fetching dir [] []) := ⟨own.1, .inl ⟨rfl, rfl⟩⟩
      have all := forall_replaced sound.readers
        (fun after (same : after ∈ some (Reader.fetching dir [] [])) =>
          Option.some.inj same ▸ fetching)
      simpa using all
  | @fetch pinned pinned' front back task next readers fetches =>
      obtain ⟨shared, own⟩ := fetches.sound sound.pinned
        (sound.subtrees task (List.mem_append_right _ List.mem_cons_self))
      exact ⟨shared, sound.readers, forall_replaced sound.subtrees own⟩

theorem Reachable.sound {s : State} (reached : Reachable repo commit config s)
    : s.Sound repo commit config := by
  induction reached with
  | refl => exact sound_new
  | tail _ step ih => exact step.sound ih

end Runs

/-- Whatever a pin comes to by any interleaving of its tasks, every listing it holds is all that
the directory lists and answers for every name as the repository does; the counter counts, both
bounds are kept; a hit makes its slot the one used last, and so does an insertion, which never
underflows and drops no listing before one used less recently.
-/
theorem listings_authoritative {repo : Git.Repository} {commit : ObjectId} {config : Config}
    {s : State} (reached : Reachable repo commit config s)
    : (∀ dir listing,
        s.pinned.listings.held dir = some listing
        → Git.Lists repo commit (dir, listing.entries)
          ∧ ∀ name, IsComponent name
            → repo.entry commit (dir.join name) = .ok (listing.get name))
      ∧ s.pinned.listings.entries = Tallies.total Slot.count s.pinned.listings.dirs
      ∧ s.pinned.listings.Fits config.capacity
      ∧ (∀ dir,
          if (s.pinned.listings.get dir).1.isSome then
            s.pinned.listings.Touches dir (s.pinned.listings.get dir).2
          else (s.pinned.listings.get dir).2.dirs = s.pinned.listings.dirs)
      ∧ ∀ dir listing,
          ∃ touched left after,
            s.pinned.listings.put dir listing = some touched
            ∧ s.pinned.listings.Touches dir touched
            ∧ touched.trim config.capacity = some left
            ∧ touched.OldestFirst left
            ∧ s.pinned.listings.insert config.capacity dir listing = some after
            ∧ (after = touched ∨ after = left)
            ∧ after.Fits config.capacity := by
  have sound := reached.sound.pinned
  refine ⟨?_, sound.tidy.counted, sound.fits, sound.tidy.get_touches, ?_⟩
  · intro dir listing found
    obtain ⟨isDir, infos, rfl, lists⟩ := sound.held dir listing found
    exact ⟨lists, fun name component => entry_of_lists isDir lists component⟩
  · intro dir listing
    obtain ⟨touched, put, tidy, -⟩ := sound.tidy.put dir listing
    obtain ⟨left, trimmed, -, fits, time, since⟩ := @Slots.Tidy.trim _ config.capacity tidy
    obtain ⟨after, inserted, -, kept, -⟩ := sound.tidy.insert config.capacity dir listing
    refine ⟨touched, left, after, put, sound.tidy.put_touches put, trimmed, since.oldestFirst,
      inserted, ?_, kept⟩
    rw [Slots.insert, put] at inserted
    dsimp only [Option.bind_eq_bind, Option.bind_some] at inserted
    split at inserted
    · exact .inr (Option.some.inj (inserted.symm.trans trimmed))
    · exact .inl (Option.some.inj inserted).symm

/-- Room for two directories and four entries. -/
def smallConfig : Config where
  capacityDirs := 2
  capacityEntries := 4
  walkPrefetchThreshold := 0
  treePageEntries := 0
  treeMaxEntries := 0
  directoryPageSize := 0

/-- The entries of the small commit's root. -/
def smallEntries : List Git.TreeEntryInfo :=
  [⟨[97], .directory, Mode.directory, ⟨.sha1, [2]⟩, 0, none⟩,
    ⟨[98], .gitlink, Mode.gitlink, ⟨.sha1, [3]⟩, 0, none⟩]

theorem small_page
    : listDirectoryPage Git.smallRepository ⟨.sha1, [0]⟩ smallConfig [] []
      = .ok ⟨smallEntries, none⟩ := by
  have stored
      : ∃ object,
          Git.smallRepository.db.tree ⟨.sha1, [1]⟩ = some object
          ∧ object.entries
            = [⟨[97], Mode.directory, ⟨.sha1, [2]⟩⟩, ⟨[98], Mode.gitlink, ⟨.sha1, [3]⟩⟩] :=
    ⟨_, rfl, rfl⟩
  obtain ⟨object, stored, entries⟩ := stored
  have sorted : (Git.DecodedTree.new object).entries = object.entries :=
    List.mergeSort_of_pairwise (by rw [entries]; decide)
  have root : Git.smallRepository.db.directoryTree ⟨.sha1, [0]⟩ []
      = .ok (some (.new object)) :=
    @Git.directoryTree_root _ _ ⟨⟨.sha1, [1]⟩, []⟩ object rfl stored
  rw [listDirectoryPage, Git.Repository.listDirectory, root]
  simp only [bind, Except.bind, Git.DecodedTree.page, pageAfter, if_true, sorted, entries]
  rfl

/-- A pin of the small commit comes to some slots and calls. -/
abbrev SmallRun (listings : Slots) (readers : List Reader) : Prop :=
  Reachable Git.smallRepository ⟨.sha1, [0]⟩ smallConfig ⟨⟨listings, .new 0, 0⟩, readers, []⟩

/-- A pin that was asked for its root holds the root's two directories. -/
theorem small_listing_authoritative
    : ∃ s listing,
        Reachable Git.smallRepository ⟨.sha1, [0]⟩ smallConfig s
        ∧ s.pinned.listings.held [] = some listing
        ∧ listing.entries.map nameOf = [[97], [98]]
        ∧ Git.smallRepository.entry ⟨.sha1, [0]⟩ [99] = .ok (listing.get [99]) := by
  have inserted
      : ∃ listings,
          Slots.insert smallConfig.capacity ⟨∅, 0, 1⟩ [] (.new ([] ++ smallEntries)) = some listings
          ∧ listings.held [] = some (.new smallEntries) :=
    ⟨_, rfl, rfl⟩
  obtain ⟨listings, inserted, held⟩ := inserted
  have asked : SmallRun .new [.asked []] := .tail .refl (.ask rfl)
  have missed : SmallRun ⟨∅, 0, 1⟩ [.missed []] :=
    .tail asked (@Step.read _ _ _ _ _ [] [] _ _ _ (.missed rfl))
  have uncovered : SmallRun ⟨∅, 0, 1⟩ [.uncovered []] :=
    .tail missed (@Step.read _ _ _ _ _ [] [] _ _ _ (.uncovered (by rintro existing ⟨⟩)))
  have fetching : SmallRun ⟨∅, 0, 1⟩ [.fetching [] [] []] :=
    .tail uncovered (@Step.read _ _ _ _ _ [] [] _ _ _ (.unwatched rfl))
  have reached : SmallRun listings [] :=
    .tail fetching (@Step.read _ _ _ _ _ [] [] _ _ _ (.last small_page rfl inserted))
  have component : IsComponent [99] := ⟨by decide, by decide⟩
  exact ⟨_, _, reached, held, by decide,
    ((listings_authoritative reached).1 [] _ held).2 [99] component⟩

end Gfs.Mount.Prefetch
