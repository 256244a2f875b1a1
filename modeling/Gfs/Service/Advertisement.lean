import Gfs.Service.Packets

/-! The scanner of an outgoing ref advertisement (`gfs-service/src/gateway/pkt.rs`), and what of a
stream it forwards however the stream is cut into chunks.
-/

namespace Gfs.Service

open Gfs.Types

-- The scanner

def reservedAdvertised : GfsError where
  code := .permissionDenied
  message := "the ref advertisement contained a reserved namespace; refusing to serve it".toList

def packetTooLong : GfsError := .invalid "advertisement packet exceeds the pkt-line maximum"

/-- The scanner: the hidden prefixes, those inside them that may appear, and the bytes held back.
-/
structure AdvertisementScanner where
  hidden : List Bytes
  allowed : List Bytes
  pending : Bytes
  deriving DecidableEq, Repr

namespace AdvertisementScanner

def new (hiddenPrefixes : List Bytes) : AdvertisementScanner :=
  ⟨hiddenPrefixes, [], []⟩

/-- Permit one subtree of the hidden namespace to appear. -/
def allowing (scanner : AdvertisementScanner) (root : Bytes) : AdvertisementScanner :=
  { scanner with allowed := scanner.allowed ++ [root] }

variable (scanner : AdvertisementScanner)

/-- Whether each occurrence of a hidden prefix is the start of an allowed one. -/
def allAllowed (payload needle : Bytes) : Bool :=
  needle.isEmpty || payload.length < needle.length
  || ((List.range (payload.length - needle.length + 1)).filter (fun i =>
        (payload.drop i).take needle.length = needle)).all (fun i =>
      scanner.allowed.any (fun root => root.isPrefixOf (payload.drop i)))

/-- Reject an advertised ref inside a reserved namespace. -/
def check (payload : Bytes) : Except GfsError Unit :=
  if scanner.hidden.all (scanner.allAllowed payload) then .ok () else .error reservedAdvertised

/-- The check of a packet: only data is looked at. -/
def checkPacket : Packet → Except GfsError Unit
  | .data payload => scanner.check payload
  | _ => .ok ()

/-- The loop over the packets held: how many bytes pass, and the error that ends it. Each packet
takes at least four bytes, so the length of the data bounds the packets left.
-/
def scanFrom : Nat → Bytes → Nat × Option GfsError
  | 0, _ => (0, none)
  | bound + 1, data =>
      if data.length < 4 then (0, none)
      else
        match decodeOne data with
        | .error refusal => (0, some refusal)
        | .ok none => (0, none)
        | .ok (some (packet, consumed)) =>
            match scanner.checkPacket packet with
            | .error refusal => (0, some refusal)
            | .ok () =>
                let (scanned, refusal) := scanFrom bound (data.drop consumed)
                (consumed + scanned, refusal)

def scan (data : Bytes) : Nat × Option GfsError :=
  scanner.scanFrom data.length data

/-- Accept a chunk, returning the prefix that has been fully scanned. An error drops what was
scanned before it.
-/
def push (chunk : Bytes) : Except GfsError Bytes × AdvertisementScanner :=
  let pending := scanner.pending ++ chunk
  match scanner.scan pending with
  | (_, some refusal) => (.error refusal, { scanner with pending })
  | (scanned, none) =>
      let held := pending.drop scanned
      if held.length > maxPktLine then (.error packetTooLong, { scanner with pending := held })
      else (.ok (pending.take scanned), { scanner with pending := held })

/-- Flush the tail after the child's output closes. -/
def finish : Bytes × AdvertisementScanner :=
  (scanner.pending, { scanner with pending := [] })

/-- What is forwarded of a child's output, chunk by chunk, up to its end or the first error, and
that error.
-/
def forward (scanner : AdvertisementScanner) : List Bytes → Bytes × Option GfsError
  | [] => (scanner.finish.1, none)
  | chunk :: chunks =>
      match scanner.push chunk with
      | (.error refusal, _) => ([], some refusal)
      | (.ok bytes, scanner) =>
          let (rest, refusal) := forward scanner chunks
          (bytes ++ rest, refusal)

end AdvertisementScanner

-- Disclosure

/-- A byte that no ref name holds, so that a name ends before it: a control character, a space,
or one of Git's special characters.
-/
def endsRefName (byte : UInt8) : Bool :=
  byte ≤ 32 || byte = 127 || [126, 94, 58, 63, 42, 91, 92].contains byte

/-- At the head of a text stands a root, or a ref below it. -/
def AtOrBelow (root text : Bytes) : Prop :=
  root <+: text
  ∧ (root.getLast? = some slash
    ∨ ∀ next ∈ (text.drop root.length).head?, next = slash ∨ endsRefName next = true)

/-- A payload names a hidden ref: somewhere in it stands a hidden prefix, and neither an allowed
root nor a ref below one. The empty prefix hides nothing.
-/
def NamesHidden (hidden allowed : List Bytes) (payload : Bytes) : Prop :=
  ∃ needle ∈ hidden, needle ≠ []
    ∧ ∃ front text,
        payload = front ++ text ∧ needle <+: text ∧ ∀ root ∈ allowed, ¬AtOrBelow root text

/-- What is left of a stream between two of its packets. -/
inductive Behind (stream : Bytes) : Bytes → Prop where
  | here : Behind stream stream
  | next {rest : Bytes} {packet : Packet} {consumed : Nat} (before : Behind stream rest)
      (long : 4 ≤ rest.length) (read : decodeOne rest = .ok (some (packet, consumed)))
      : Behind stream (rest.drop consumed)

/-- The payload of the packet at the head of a stream, complete or cut short. -/
def headPayload (stream : Bytes) : Option Bytes :=
  if stream.length < 4 then none
  else
    match decodeOne stream with
    | .ok (some (.data payload, _)) => some payload
    | .ok none => some (stream.drop 4)
    | _ => none

/-- A packet of the stream, complete or cut short, names a hidden ref. -/
def Discloses (hidden allowed : List Bytes) (stream : Bytes) : Prop :=
  ∃ rest payload,
    Behind stream rest ∧ headPayload rest = some payload ∧ NamesHidden hidden allowed payload

/-- A header of the stream is malformed. -/
def Misframed (stream : Bytes) : Prop :=
  ∃ rest refusal, Behind stream rest ∧ 4 ≤ rest.length ∧ decodeOne rest = .error refusal

namespace AdvertisementScanner

/-- The packet at the head of a stream is refused: its header is malformed, or it holds a hidden
prefix that begins no allowed one.
-/
def RefusesWith (scanner : AdvertisementScanner) (stream : Bytes) (refusal : GfsError) : Prop :=
  4 ≤ stream.length
  ∧ (decodeOne stream = .error refusal
    ∨ ∃ packet consumed,
        decodeOne stream = .ok (some (packet, consumed))
        ∧ scanner.checkPacket packet = .error refusal)

def Refuses (scanner : AdvertisementScanner) (stream : Bytes) : Prop :=
  ∃ refusal, scanner.RefusesWith stream refusal

/-- What a scanner is for: whatever the chunks, it forwards no hidden ref, all of a stream it has
no error for, and the same bytes and error as for any other chunks.
-/
structure Screens (scanner : AdvertisementScanner) (stream : Bytes) : Prop where
  discreet
    : ∀ chunks : List Bytes,
        chunks.flatten = stream
        → ¬Discloses scanner.hidden scanner.allowed (scanner.forward chunks).1
  faithful
    : ∀ chunks : List Bytes,
        chunks.flatten = stream
        → (scanner.forward chunks).2 = none
        → (scanner.forward chunks).1 = stream
  steady
    : ∀ chunks others : List Bytes,
        chunks.flatten = stream
        → others.flatten = stream
        → scanner.forward chunks = scanner.forward others

-- The loop

variable {scanner : AdvertisementScanner} {data : Bytes}

/-- The loop stops for now: the data ends before or inside a packet. -/
def Idle (data : Bytes) : Prop :=
  data.length < 4 ∨ decodeOne data = .ok none

/-- A packet passes and the loop goes on behind it. -/
structure Passes (scanner : AdvertisementScanner) (data : Bytes) (consumed : Nat) : Prop where
  long : 4 ≤ data.length
  least : 4 ≤ consumed
  within : consumed ≤ data.length
  read
    : ∃ packet,
        decodeOne data = .ok (some (packet, consumed)) ∧ scanner.checkPacket packet = .ok ()

theorem scan_cases (scanner : AdvertisementScanner) (data : Bytes)
    : Idle data ∨ scanner.Refuses data ∨ ∃ consumed, scanner.Passes data consumed := by
  by_cases short : data.length < 4
  · exact .inl (.inl short)
  · have long := Nat.le_of_not_lt short
    cases read : decodeOne data with
    | error refusal => exact .inr (.inl ⟨refusal, long, .inl read⟩)
    | ok outcome =>
        cases outcome with
        | none => exact .inl (.inr read)
        | some found =>
            obtain ⟨packet, consumed⟩ := found
            cases checked : scanner.checkPacket packet with
            | error refusal =>
                exact .inr (.inl ⟨refusal, long, .inr ⟨packet, consumed, read, checked⟩⟩)
            | ok done =>
                obtain ⟨-, -, count, within, -⟩ := decodeOne_packet long read
                exact .inr (.inr ⟨consumed, long, count ▸ packetLength_least _, within, packet,
                  read, checked⟩)

@[elab_as_elim]
theorem scan_induction (scanner : AdvertisementScanner) {motive : Bytes → Prop}
    (idle : ∀ data, Idle data → motive data) (refused : ∀ data, scanner.Refuses data → motive data)
    (next
      : ∀ data consumed,
          scanner.Passes data consumed → motive (data.drop consumed) → motive data)
    (data : Bytes)
    : motive data := by
  induction size : data.length using Nat.strongRecOn generalizing data with
  | ind length ih =>
      rcases scan_cases scanner data with stops | refuses | ⟨consumed, passes⟩
      · exact idle data stops
      · exact refused data refuses
      · have long := passes.long
        have least := passes.least
        apply next data consumed passes
        refine ih _ ?_ _ rfl
        rw [List.length_drop]
        omega

/-- What the loop gives, whatever bounds the packets left. -/
theorem scanFrom_of_le {bound : Nat} (enough : data.length ≤ bound)
    : scanner.scanFrom bound data = scanner.scan data := by
  induction bound using Nat.strongRecOn generalizing data with
  | ind bound ih =>
      cases bound with
      | zero =>
          rw [List.eq_nil_of_length_eq_zero (Nat.le_zero.mp enough)]
          rfl
      | succ bound =>
          cases data with
          | nil => rfl
          | cons byte rest =>
              rw [scan, List.length_cons, scanFrom, scanFrom]
              rcases scan_cases scanner (byte :: rest) with
                (short | cut) | ⟨refusal, long, stops⟩ | found
              · rw [if_pos short, if_pos short]
              · rw [cut]
              · rcases stops with read | ⟨packet, consumed, read, checked⟩
                · rw [read]
                · simp only [read, checked]
              · obtain ⟨consumed, passes⟩ := found
                obtain ⟨packet, read, checked⟩ := passes.read
                have least := passes.least
                rw [List.length_cons] at enough
                have left : ((byte :: rest).drop consumed).length ≤ rest.length := by
                  rw [List.length_drop, List.length_cons]
                  omega
                simp only [read, checked]
                rw [ih bound (Nat.lt_succ_self _) (by omega), ih rest.length (by omega) left]

theorem scan_idle (idle : Idle data) : scanner.scan data = (0, none) := by
  cases data with
  | nil => rfl
  | cons byte rest =>
      rw [scan, List.length_cons, scanFrom]
      rcases idle with short | cut
      · rw [if_pos short]
      · simp [cut]

variable {refusal : GfsError}

theorem scan_refused (refuses : scanner.RefusesWith data refusal)
    : scanner.scan data = (0, some refusal) := by
  obtain ⟨long, stops⟩ := refuses
  cases data with
  | nil => simp at long
  | cons byte rest =>
      rw [scan, List.length_cons, scanFrom, if_neg (Nat.not_lt.mpr long)]
      rcases stops with read | ⟨packet, consumed, read, checked⟩
      · rw [read]
      · simp only [read, checked]

theorem scan_passes {consumed : Nat} (passes : scanner.Passes data consumed)
    : scanner.scan data
      = (consumed + (scanner.scan (data.drop consumed)).1,
          (scanner.scan (data.drop consumed)).2) := by
  obtain ⟨packet, read, checked⟩ := passes.read
  have long := passes.long
  have least := passes.least
  cases data with
  | nil => simp at long
  | cons byte rest =>
      conv_lhs => rw [scan, List.length_cons, scanFrom, if_neg (Nat.not_lt.mpr long)]
      simp only [read, checked]
      rw [scanFrom_of_le]
      rw [List.length_drop, List.length_cons]
      omega

-- More data

theorem decodeOne_error (long : 4 ≤ data.length) (read : decodeOne data = .error refusal)
    (more : Bytes)
    : decodeOne (data ++ more) = .error refusal := by
  rw [decodeOne] at read
  rw [decodeOne, List.take_append_of_le_length long]
  split at read
  · exact read
  · cases read
  · cases read
  · cases read
  · exact read
  · split at read
    · rename_i large
      rw [if_pos large]
      exact read
    · split at read <;> cases read

theorem Passes.append {consumed : Nat} (passes : scanner.Passes data consumed) (more : Bytes)
    : scanner.Passes (data ++ more) consumed := by
  obtain ⟨packet, read, checked⟩ := passes.read
  have long := passes.long
  have within := passes.within
  have further := decodeOne_append long read (data.drop consumed ++ more)
  rw [← List.append_assoc, List.take_append_drop] at further
  have size : (data ++ more).length = data.length + more.length := List.length_append
  exact ⟨by omega, passes.least, by omega, packet, further, checked⟩

theorem RefusesWith.append (refuses : scanner.RefusesWith data refusal) (more : Bytes)
    : scanner.RefusesWith (data ++ more) refusal := by
  obtain ⟨long, stops⟩ := refuses
  refine ⟨by rw [List.length_append]; omega, ?_⟩
  rcases stops with read | ⟨packet, consumed, read, checked⟩
  · exact .inl (decodeOne_error long read more)
  · have further := decodeOne_append long read (data.drop consumed ++ more)
    rw [← List.append_assoc, List.take_append_drop] at further
    exact .inr ⟨packet, consumed, further, checked⟩

theorem scan_append (scanner : AdvertisementScanner) (data more : Bytes)
    (goesOn : (scanner.scan data).2 = none)
    : scanner.scan (data ++ more)
      = ((scanner.scan data).1 + (scanner.scan (data.drop (scanner.scan data).1 ++ more)).1,
          (scanner.scan (data.drop (scanner.scan data).1 ++ more)).2) := by
  induction data using scan_induction scanner with
  | idle data idle =>
      rw [scan_idle idle]
      simp
  | refused data refuses =>
      obtain ⟨refusal, refuses⟩ := refuses
      rw [scan_refused refuses] at goesOn
      cases goesOn
  | next data consumed passes ih =>
      rw [scan_passes passes] at goesOn
      rw [scan_passes (passes.append more), scan_passes passes,
        List.drop_append_of_le_length passes.within, ih goesOn]
      simp only [List.drop_drop, Nat.add_assoc]

theorem scan_append_error (scanner : AdvertisementScanner) (data more : Bytes)
    (stopped : (scanner.scan data).2 = some refusal)
    : scanner.scan (data ++ more) = scanner.scan data := by
  induction data using scan_induction scanner with
  | idle data idle =>
      rw [scan_idle idle] at stopped
      cases stopped
  | refused data refuses =>
      obtain ⟨refusal, refuses⟩ := refuses
      rw [scan_refused refuses, scan_refused (refuses.append more)]
  | next data consumed passes ih =>
      rw [scan_passes passes] at stopped
      rw [scan_passes (passes.append more), scan_passes passes,
        List.drop_append_of_le_length passes.within, ih stopped]

/-- Where the loop stops. -/
theorem scan_stops (scanner : AdvertisementScanner) (data : Bytes)
    : (scanner.scan data).1 ≤ data.length
      ∧ ((scanner.scan data).2 = none → Idle (data.drop (scanner.scan data).1))
      ∧ (∀ refusal,
          (scanner.scan data).2 = some refusal
          → scanner.RefusesWith (data.drop (scanner.scan data).1) refusal) := by
  induction data using scan_induction scanner with
  | idle data idle =>
      rw [scan_idle idle]
      exact ⟨Nat.zero_le _, fun _ => idle, nofun⟩
  | refused data refuses =>
      obtain ⟨refusal, refuses⟩ := refuses
      rw [scan_refused refuses]
      refine ⟨Nat.zero_le _, nofun, ?_⟩
      intro other same
      cases same
      exact refuses
  | next data consumed passes ih =>
      obtain ⟨bound, stops, refused⟩ := ih
      have within := passes.within
      rw [List.length_drop] at bound
      rw [List.drop_drop] at stops refused
      rw [scan_passes passes]
      exact ⟨by dsimp only; omega, stops, refused⟩

/-- The bytes that pass, pass alone. -/
theorem scan_take (scanner : AdvertisementScanner) (data : Bytes)
    : scanner.scan (data.take (scanner.scan data).1) = ((scanner.scan data).1, none) := by
  induction data using scan_induction scanner with
  | idle data idle =>
      rw [scan_idle idle]
      rfl
  | refused data refuses =>
      obtain ⟨refusal, refuses⟩ := refuses
      rw [scan_refused refuses]
      rfl
  | next data consumed passes ih =>
      obtain ⟨packet, read, checked⟩ := passes.read
      have least := passes.least
      have within := passes.within
      have size : (data.take consumed).length = consumed := by
        rw [List.length_take]
        exact Nat.min_eq_left within
      have whole
          : data.take (consumed + (scanner.scan (data.drop consumed)).1)
            = data.take consumed
              ++ (data.drop consumed).take (scanner.scan (data.drop consumed)).1 :=
        List.take_add
      have front
          : scanner.Passes
              (data.take consumed
                ++ (data.drop consumed).take (scanner.scan (data.drop consumed)).1)
              consumed := by
        refine ⟨?_, least, ?_, packet, decodeOne_append passes.long read _, checked⟩
        · rw [List.length_append]
          omega
        · rw [List.length_append]
          omega
      rw [scan_passes passes, whole, scan_passes front, List.drop_left' size, ih]

theorem Idle.length_le (idle : Idle data) : data.length ≤ maxPktLine := by
  rcases idle with short | cut
  · exact Nat.le_trans (Nat.le_of_lt short) (by decide)
  · rw [decodeOne] at cut
    split at cut
    · cases cut
    · cases cut
    · cases cut
    · cases cut
    · cases cut
    · split at cut
      · cases cut
      · split at cut
        · omega
        · cases cut

-- Chunks

theorem push_ok (scanner : AdvertisementScanner) (chunk : Bytes)
    (goesOn : (scanner.scan (scanner.pending ++ chunk)).2 = none)
    : scanner.push chunk
      = (.ok ((scanner.pending ++ chunk).take (scanner.scan (scanner.pending ++ chunk)).1),
          {
            scanner with
            pending := (scanner.pending ++ chunk).drop (scanner.scan (scanner.pending ++ chunk)).1
          }) := by
  have held := ((scan_stops scanner (scanner.pending ++ chunk)).2.1 goesOn).length_le
  rw [push]
  split
  · rename_i scanned refusal stopped
    rw [stopped] at goesOn
    cases goesOn
  · rename_i scanned passed
    rw [passed] at held ⊢
    rw [if_neg (Nat.not_lt.mpr held)]

theorem push_error (scanner : AdvertisementScanner) (chunk : Bytes)
    (stopped : (scanner.scan (scanner.pending ++ chunk)).2 = some refusal)
    : (scanner.push chunk).1 = .error refusal := by
  rw [push]
  split
  · rename_i scanned other same
    rw [same] at stopped
    cases stopped
    rfl
  · rename_i scanned passed
    rw [passed] at stopped
    cases stopped

theorem forward_error (scanner : AdvertisementScanner) (chunk : Bytes) (chunks : List Bytes)
    (stopped : (scanner.scan (scanner.pending ++ chunk)).2 = some refusal)
    : scanner.forward (chunk :: chunks) = ([], some refusal) := by
  have pushed := push_error scanner chunk stopped
  rw [forward]
  split
  · rename_i same
    rw [same] at pushed
    cases pushed
    rfl
  · rename_i same
    rw [same] at pushed
    cases pushed

theorem scan_pending (scanner : AdvertisementScanner) (pending data : Bytes)
    : { scanner with pending }.scan data = scanner.scan data := by
  have same (packet : Packet)
      : { scanner with pending }.checkPacket packet = scanner.checkPacket packet := by
    cases packet <;> rfl
  rw [scan, scan]
  generalize data.length = bound
  induction bound generalizing data with
  | zero => rfl
  | succ bound ih => simp only [scanFrom, same, ih]

/-- What is forwarded of chunks, by what the scan of the whole stream gives. -/
theorem forward_spec (scanner : AdvertisementScanner) (idle : Idle scanner.pending)
    (chunks : List Bytes)
    : ((scanner.scan (scanner.pending ++ chunks.flatten)).2 = none
        → scanner.forward chunks = (scanner.pending ++ chunks.flatten, none))
      ∧ (∀ refusal,
          (scanner.scan (scanner.pending ++ chunks.flatten)).2 = some refusal
          → (scanner.forward chunks).2 = some refusal) := by
  induction chunks generalizing scanner with
  | nil =>
      rw [List.flatten_nil, List.append_nil, scan_idle idle]
      exact ⟨fun _ => rfl, nofun⟩
  | cons chunk chunks ih =>
      rw [List.flatten_cons, ← List.append_assoc]
      cases first : (scanner.scan (scanner.pending ++ chunk)).2 with
      | some refusal =>
          rw [scan_append_error scanner _ _ first, first, forward_error scanner chunk chunks first]
          exact ⟨nofun, fun _ same => same⟩
      | none =>
          have pushed := push_ok scanner chunk first
          have whole := scan_append scanner (scanner.pending ++ chunk) chunks.flatten first
          have held := (scan_stops scanner (scanner.pending ++ chunk)).2.1 first
          have rest :=
            ih
              {
                scanner with
                pending := (scanner.pending ++ chunk).drop
                  (scanner.scan (scanner.pending ++ chunk)).1
              }
              held
          rw [scan_pending] at rest
          rw [whole, forward, pushed]
          obtain ⟨passed, stopped⟩ := rest
          constructor
          · intro goesOn
            dsimp only
            rw [passed goesOn]
            dsimp only
            rw [← List.append_assoc, List.take_append_drop]
          · intro refusal refused
            exact stopped refusal refused

theorem RefusesWith.held (refuses : scanner.RefusesWith data refusal) (pending : Bytes)
    : { scanner with pending }.RefusesWith data refusal := by
  obtain ⟨long, read | ⟨packet, consumed, read, checked⟩⟩ := refuses
  · exact ⟨long, .inl read⟩
  · refine ⟨long, .inr ⟨packet, consumed, read, ?_⟩⟩
    cases packet <;> exact checked

/-- Nothing is forwarded of a stream whose first packet is refused. -/
theorem forward_refused (scanner : AdvertisementScanner) (idle : Idle scanner.pending)
    (refusal : GfsError) (chunks : List Bytes)
    (refuses : scanner.RefusesWith (scanner.pending ++ chunks.flatten) refusal)
    : scanner.forward chunks = ([], some refusal) := by
  have stopped := scan_refused refuses
  have ends := (forward_spec scanner idle chunks).2 refusal (by rw [stopped])
  refine Prod.ext ?_ ends
  induction chunks generalizing scanner with
  | nil =>
      rw [List.flatten_nil, List.append_nil, scan_idle idle] at stopped
      cases stopped
  | cons chunk chunks ih =>
      rw [List.flatten_cons, ← List.append_assoc] at stopped refuses
      cases first : (scanner.scan (scanner.pending ++ chunk)).2 with
      | some other =>
          rw [forward_error scanner chunk chunks first]
      | none =>
          have pushed := push_ok scanner chunk first
          have whole := scan_append scanner (scanner.pending ++ chunk) chunks.flatten first
          rw [stopped] at whole
          have none_ : (scanner.scan (scanner.pending ++ chunk)).1 = 0 := by
            have count := congrArg Prod.fst whole
            dsimp only at count
            omega
          have held := (scan_stops scanner (scanner.pending ++ chunk)).2.1 first
          rw [none_, List.drop_zero] at held
          rw [none_, List.drop_zero, List.take_zero] at pushed
          have refuses' := refuses.held (scanner.pending ++ chunk)
          rw [forward, pushed]
          have stopped' := scan_refused refuses'
          exact ih { scanner with pending := scanner.pending ++ chunk } held refuses' stopped'
            ((forward_spec { scanner with pending := scanner.pending ++ chunk } held chunks).2
              refusal (by rw [stopped']))

-- What the scan lets by

theorem namesHidden_of_check {payload : Bytes} (refused : scanner.check payload = .error refusal)
    : NamesHidden scanner.hidden scanner.allowed payload := by
  rw [check] at refused
  split at refused
  · cases refused
  · rename_i failed
    simp only [List.all_eq_true, not_forall] at failed
    obtain ⟨needle, listed, failed⟩ := failed
    simp only [allAllowed, Bool.or_eq_true, List.isEmpty_iff, decide_eq_true_eq, not_or,
      List.all_eq_true, List.mem_filter, List.mem_range, List.any_eq_true, not_forall,
      List.isPrefixOf_iff_prefix, and_imp] at failed
    obtain ⟨⟨nonempty, -⟩, position, -, found, none_⟩ := failed
    refine ⟨needle, listed, nonempty, payload.take position, payload.drop position,
      (List.take_append_drop _ _).symm, ?_, ?_⟩
    · rw [← found]
      exact List.take_prefix _ _
    · intro root permitted below
      exact none_ ⟨root, permitted, below.1⟩

theorem Behind.cons {packet : Packet} {consumed : Nat} (long : 4 ≤ data.length)
    (read : decodeOne data = .ok (some (packet, consumed))) {rest : Bytes}
    (behind : Behind (data.drop consumed) rest)
    : Behind data rest := by
  induction behind with
  | here => exact .next .here long read
  | next _ long' read' ih => exact .next ih long' read'

theorem behind_scan (scanner : AdvertisementScanner) (data : Bytes)
    : Behind data (data.drop (scanner.scan data).1) := by
  induction data using scan_induction scanner with
  | idle data idle =>
      rw [scan_idle idle]
      exact .here
  | refused data refuses =>
      obtain ⟨refusal, refuses⟩ := refuses
      rw [scan_refused refuses]
      exact .here
  | next data consumed passes ih =>
      obtain ⟨packet, read, -⟩ := passes.read
      rw [List.drop_drop] at ih
      rw [scan_passes passes]
      exact Behind.cons passes.long read ih

theorem scan_behind {stream rest : Bytes} (goesOn : (scanner.scan stream).2 = none)
    (behind : Behind stream rest)
    : (scanner.scan rest).2 = none := by
  induction behind with
  | here => exact goesOn
  | @next rest packet consumed before long read ih =>
      rcases scan_cases scanner rest with (short | cut) | ⟨refusal, refuses⟩ | ⟨other, passes⟩
      · exact absurd long (Nat.not_le.mpr short)
      · rw [cut] at read
        cases read
      · rw [scan_refused refuses] at ih
        cases ih
      · obtain ⟨first, same, -⟩ := passes.read
        rw [read] at same
        cases same
        rw [scan_passes passes] at ih
        exact ih

theorem not_discloses_nil (hidden allowed : List Bytes) : ¬Discloses hidden allowed [] := by
  rintro ⟨rest, payload, behind, head, -⟩
  have empty : rest = [] := by
    clear head
    induction behind with
    | here => rfl
    | next _ long _ ih =>
        rw [ih] at long
        exact absurd long (by decide)
  rw [empty] at head
  cases head

theorem scan_of_discreet {stream : Bytes} (framed : ¬Misframed stream)
    (discreet : ¬Discloses scanner.hidden scanner.allowed stream)
    : (scanner.scan stream).2 = none := by
  cases outcome : (scanner.scan stream).2 with
  | none => rfl
  | some refusal =>
      exfalso
      have behind := behind_scan scanner stream
      obtain ⟨long, read | ⟨packet, consumed, read, checked⟩⟩ :=
        (scan_stops scanner stream).2.2 refusal outcome
      · exact framed ⟨_, refusal, behind, long, read⟩
      · cases packet with
        | data payload =>
            refine discreet ⟨_, payload, behind, ?_, namesHidden_of_check checked⟩
            rw [headPayload, if_neg (Nat.not_lt.mpr long), read]
        | flush => cases checked
        | delim => cases checked
        | responseEnd => cases checked

/-- A scanner with nothing held does what it is for exactly when the stream's first packet is
refused, or the stream is well framed and discloses nothing.
-/
theorem screens_iff (fresh : scanner.pending = []) (stream : Bytes)
    : scanner.Screens stream
      ↔ scanner.Refuses stream
        ∨ (¬Misframed stream ∧ ¬Discloses scanner.hidden scanner.allowed stream) := by
  have idle : Idle scanner.pending := .inl (by rw [fresh]; decide)
  have whole (chunks : List Bytes) : scanner.pending ++ chunks.flatten = chunks.flatten := by
    rw [fresh, List.nil_append]
  constructor
  · intro screens
    cases outcome : (scanner.scan stream).2 with
    | none =>
        right
        have sent : scanner.forward [stream] = (stream, none) := by
          have passed := (forward_spec scanner idle [stream]).1
          rw [whole, List.flatten_singleton] at passed
          exact passed outcome
        constructor
        · rintro ⟨rest, refusal, behind, long, read⟩
          have passes := scan_behind outcome behind
          rw [scan_refused ⟨long, .inl read⟩] at passes
          cases passes
        · intro discloses
          apply screens.discreet [stream] List.flatten_singleton
          rw [sent]
          exact discloses
    | some refusal =>
        left
        refine ⟨refusal, ?_⟩
        have refuses := (scan_stops scanner stream).2.2 refusal outcome
        have bound := (scan_stops scanner stream).1
        generalize counted : (scanner.scan stream).1 = count at refuses bound
        -- The stream in one piece, and cut before the packet that is refused.
        have once : scanner.forward [stream] = ([], some refusal) :=
          forward_error scanner stream [] (by rw [fresh, List.nil_append, outcome])
        have cut
            : scanner.forward [stream.take count, stream.drop count]
              = (stream.take count, some refusal) := by
          have alone := scan_take scanner stream
          rw [counted] at alone
          have pushed := push_ok scanner (stream.take count)
            (by rw [fresh, List.nil_append, alone])
          rw [fresh, List.nil_append, alone] at pushed
          have left : (stream.take count).drop count = [] :=
            List.drop_eq_nil_iff.mpr (List.length_take_le _ _)
          rw [forward, pushed]
          dsimp only
          rw [left, forward_refused { scanner with pending := [] } (.inl (Nat.succ_pos 3)) refusal]
          · rw [List.append_nil, List.take_take, Nat.min_self]
          · rw [List.flatten_singleton, List.nil_append]
            exact refuses.held []
        have same := screens.steady [stream] [stream.take count, stream.drop count]
          List.flatten_singleton (by simp)
        rw [once, cut] at same
        have empty : count = 0 := by
          have nothing := (congrArg (fun sent => sent.1.length) same).symm
          simp only [List.length_take, List.length_nil] at nothing
          have some_ := refuses.1
          rw [List.length_drop] at some_
          omega
        rw [empty, List.drop_zero] at refuses
        exact refuses
  · rintro (⟨refusal, refuses⟩ | ⟨framed, discreet⟩)
    · have sent (chunks : List Bytes) (cut : chunks.flatten = stream)
          : scanner.forward chunks = ([], some refusal) := by
        apply forward_refused scanner idle
        rw [whole, cut]
        exact refuses
      constructor
      · intro chunks cut
        rw [sent chunks cut]
        exact not_discloses_nil _ _
      · intro chunks cut passed
        rw [sent chunks cut] at passed
        cases passed
      · intro chunks others cut cut'
        rw [sent chunks cut, sent others cut']
    · have sent (chunks : List Bytes) (cut : chunks.flatten = stream)
          : scanner.forward chunks = (stream, none) := by
        have passed := (forward_spec scanner idle chunks).1
        rw [whole, cut] at passed
        exact passed (scan_of_discreet framed discreet)
      constructor
      · intro chunks cut
        rw [sent chunks cut]
        exact discreet
      · intro chunks cut _
        rw [sent chunks cut]
      · intro chunks others cut cut'
        rw [sent chunks cut, sent others cut']

end AdvertisementScanner

-- The advertisement of a push

/-- The scanner of a push's advertisement, which permits the caller's work root: whether it ends
in an error does not depend on the chunks, and without one it forwards the stream. It does all
that it is for exactly when the stream's first packet is refused, or the stream is well framed and
no packet, complete or cut short, names a hidden ref other than the root and the refs below.
-/
theorem advertisement_screened_iff (hiddenPrefixes : List Bytes) (workRoot stream : Bytes)
    : let scanner := (AdvertisementScanner.new hiddenPrefixes).allowing workRoot
      (∀ chunks others : List Bytes,
          chunks.flatten = stream
          → others.flatten = stream
          → (scanner.forward chunks).2 = (scanner.forward others).2)
      ∧ (∀ chunks : List Bytes,
          chunks.flatten = stream
          → (scanner.forward chunks).2 = none
          → (scanner.forward chunks).1 = stream)
      ∧ (scanner.Screens stream
        ↔ scanner.Refuses stream
          ∨ (¬Misframed stream ∧ ¬Discloses hiddenPrefixes [workRoot] stream)) := by
  intro scanner
  have idle : AdvertisementScanner.Idle scanner.pending := .inl (Nat.succ_pos 3)
  have outcome (chunks : List Bytes) (cut : chunks.flatten = stream)
      : (scanner.forward chunks).2 = (scanner.scan stream).2 := by
    obtain ⟨passed, stopped⟩ := AdvertisementScanner.forward_spec scanner idle chunks
    rw [show scanner.pending ++ chunks.flatten = stream from cut] at passed stopped
    cases result : (scanner.scan stream).2 with
    | none => rw [passed result]
    | some refusal => exact stopped refusal result
  refine ⟨?_, ?_, AdvertisementScanner.screens_iff rfl stream⟩
  · intro chunks others cut cut'
    rw [outcome chunks cut, outcome others cut']
  · intro chunks cut goesOn
    have passed := (AdvertisementScanner.forward_spec scanner idle chunks).1
    rw [show scanner.pending ++ chunks.flatten = stream from cut] at passed
    rw [outcome chunks cut] at goesOn
    rw [passed goesOn]

/-- The bytes of an ASCII line. -/
def ascii (line : String) : Bytes :=
  line.toList.map (fun c => c.toNat.toUInt8)

/-- An advertised ref. -/
def advertised (refname : String) : Bytes :=
  ascii "1111111111111111111111111111111111111111 " ++ ascii refname ++ [10]

/-- With the work root of `alice`, a ref of `alice2` is forwarded; so is a hidden ref in a packet
that is cut short; and what is forwarded before a hidden ref is found depends on the chunks.
-/
theorem hidden_refs_forwarded
    : let scanner :=
        (AdvertisementScanner.new [ascii "refs/gfs/"]).allowing (ascii "refs/gfs/work/alice")
      let sibling := pktLine (advertised "refs/gfs/work/alice2/topic")
      let branch := pktLine (advertised "refs/heads/main")
      let anchor := pktLine (advertised "refs/gfs/mounts/m-1")
      let cut := anchor.take 64
      scanner.forward [sibling] = (sibling, none)
      ∧ Discloses scanner.hidden scanner.allowed sibling
      ∧ scanner.forward [cut] = (cut, none)
      ∧ Discloses scanner.hidden scanner.allowed cut
      ∧ scanner.forward [branch ++ anchor] = ([], some reservedAdvertised)
      ∧ scanner.forward [branch, anchor] = (branch, some reservedAdvertised) := by
  have names (rest : Bytes) {allowed : List Bytes} {front text : Bytes}
      (whole : text = ascii "refs/gfs/" ++ rest) (other : ∀ root ∈ allowed, ¬AtOrBelow root text)
      : NamesHidden [ascii "refs/gfs/"] allowed (front ++ text) :=
    ⟨_, List.mem_singleton_self _, by decide +kernel, front, text, rfl, ⟨rest, whole.symm⟩, other⟩
  have apart (next : UInt8) {text : Bytes}
      (head : (text.drop (ascii "refs/gfs/work/alice").length).head? = some next)
      (plain : next ≠ slash ∧ endsRefName next = false)
      : ¬AtOrBelow (ascii "refs/gfs/work/alice") text := by
    rintro ⟨-, ends | follows⟩
    · exact absurd ends (by decide +kernel)
    · rcases follows next head with isSlash | isEnd
      · exact plain.1 isSlash
      · rw [plain.2] at isEnd
        cases isEnd
  refine ⟨by decide +kernel,
    ⟨_, advertised "refs/gfs/work/alice2/topic", .here, by decide +kernel, ?_⟩, by decide +kernel,
    ⟨_, (advertised "refs/gfs/mounts/m-1").take 60, .here, by decide +kernel, ?_⟩,
    by decide +kernel, by decide +kernel⟩
  · rw [advertised, List.append_assoc]
    apply names (ascii "work/alice2/topic" ++ [10]) (by decide +kernel)
    intro root permitted
    rw [List.mem_singleton.mp permitted]
    exact apart 50 (by decide +kernel) (by decide)
  · rw [show (advertised "refs/gfs/mounts/m-1").take 60
      = ascii "1111111111111111111111111111111111111111 " ++ ascii "refs/gfs/mounts/m-1" by
        decide +kernel]
    apply names (ascii "mounts/m-1") (by decide +kernel)
    intro root permitted below
    rw [List.mem_singleton.mp permitted] at below
    exact absurd below.1 (by decide +kernel)

end Gfs.Service
