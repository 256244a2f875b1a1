import Gfs.Service.Push

/-! Whole pkt-line streams (`gfs-service/src/gateway/pkt.rs`): what the gateway writes, what it
decodes, and how both compare with Git's reading of a packet's four hexadecimal digits.
-/

namespace Gfs.Service

open Gfs.Types

-- Encoding

/-- The byte of a lower-case hexadecimal digit. -/
def hexByte (value : Nat) : UInt8 :=
  value.digitChar.toNat.toUInt8

/-- `format!("{:04x}", value)`: at least four digits. -/
def lengthPrefix (value : Nat) : Bytes :=
  ((Nat.toDigits 16 value).map (fun digit => digit.toNat.toUInt8)).leftpad 4 48

/-- Frame a payload as a pkt-line. -/
def pktLine (payload : Bytes) : Bytes :=
  lengthPrefix (payload.length + 4) ++ payload

/-- The flush packet. -/
def flushPkt : Bytes := [48, 48, 48, 48]

namespace Packet

/-- The number a packet's header spells. -/
def field : Packet → Nat
  | .data payload => payload.length + 4
  | .flush => 0
  | .delim => 1
  | .responseEnd => 2

def payload : Packet → Bytes
  | .data payload => payload
  | _ => []

/-- A packet on the wire. -/
def encode : Packet → Bytes
  | .data payload => pktLine payload
  | .flush => flushPkt
  | .delim => [48, 48, 48, 49]
  | .responseEnd => [48, 48, 48, 50]

/-- A data packet's payload is within Git's maximum. -/
def Fits (packet : Packet) : Prop :=
  packet.payload.length + 4 ≤ maxPktLine

instance (packet : Packet) : Decidable packet.Fits :=
  inferInstanceAs (Decidable (_ ≤ _))

end Packet

/-- A list of packets on the wire. -/
def encodePackets (packets : List Packet) : Bytes :=
  packets.flatMap Packet.encode

-- Decoding

/-- The loop over a complete stream. Each packet takes at least four bytes, so the length of the
data bounds the packets left.
-/
def decodeAll : Nat → Bytes → Except GfsError (List Packet)
  | 0, _ => .ok []
  | bound + 1, data =>
      if data.length < 4 then .ok []
      else
        match decodeOne data with
        | .error refusal => .error refusal
        | .ok none => .error truncated
        | .ok (some (packet, consumed)) =>
            (decodeAll bound (data.drop consumed)).map (packet :: ·)

/-- Decode a complete pkt-line stream. -/
def decode (data : Bytes) : Except GfsError (List Packet) :=
  decodeAll data.length data

-- Git's reading

/-- Git's reading of a header: four hexadecimal digits and nothing else. -/
def gitHeader : Bytes → Option Nat
  | [a, b, c, d] => do
      let a ← hexDigit a
      let b ← hexDigit b
      let c ← hexDigit c
      let d ← hexDigit d
      return ((a * 16 + b) * 16 + c) * 16 + d
  | _ => none

/-- How many bytes a packet takes whose header has a value. -/
def packetLength (field : Nat) : Nat :=
  if field < 4 then 4 else field

/-- The positions between the packets of a stream, as Git reads it. -/
inductive Boundary (data : Bytes) : Nat → Prop where
  | start : Boundary data 0
  | next {position field : Nat} (before : Boundary data position)
      (header : gitHeader ((data.drop position).take 4) = some field)
      (whole : position + packetLength field ≤ data.length)
      : Boundary data (position + packetLength field)

/-- At every position between packets nothing is left, or four bytes are that do not begin with a
plus sign.
-/
def PlainHeaders (data : Bytes) : Prop :=
  ∀ position,
    Boundary data position
    → data.length ≤ position
      ∨ (position + 4 ≤ data.length ∧ (data.drop position).head? ≠ some 43)

/-- `u8::to_ascii_lowercase`. -/
def lowerCase (byte : UInt8) : UInt8 :=
  if 65 ≤ byte ∧ byte ≤ 90 then byte + 32 else byte

/-- The packets, written out again, are the bytes up to the case of the header's digits. -/
inductive ReadsBack : List Packet → Bytes → Prop where
  | nil : ReadsBack [] []
  | cons {packet : Packet} {packets : List Packet} {header rest : Bytes}
      (alike : header.map lowerCase ++ packet.payload = packet.encode)
      (tail : ReadsBack packets rest)
      : ReadsBack (packet :: packets) (header ++ packet.payload ++ rest)

example : decode (pktLine [104, 105] ++ flushPkt) = .ok [.data [104, 105], .flush] := by decide

-- Digits

variable {value : Nat}

theorem hexByte_digit (small : value < 16)
    : hexDigit (hexByte value) = some value
      ∧ lowerCase (hexByte value) = hexByte value
      ∧ hexByte value ≠ 43 := by
  revert value
  decide

theorem lowerCase_of_hexDigit {byte : UInt8} (digit : hexDigit byte = some value)
    : value < 16 ∧ lowerCase byte = hexByte value := by
  have table
      : ∀ code < 256, ∀ value ∈ hexDigit (UInt8.ofNat code),
          value < 16 ∧ lowerCase (UInt8.ofNat code) = hexByte value := by
    decide +kernel
  have here := table byte.toNat byte.toNat_lt value (by rw [UInt8.ofNat_toNat]; exact digit)
  rwa [UInt8.ofNat_toNat] at here

theorem hexDigit_of_lowerCase {byte : UInt8} (small : value < 16)
    (alike : lowerCase byte = hexByte value)
    : hexDigit byte = some value ∧ byte ≠ 43 := by
  have table
      : ∀ code < 256, hexDigit (lowerCase (UInt8.ofNat code)) = hexDigit (UInt8.ofNat code) := by
    decide +kernel
  have here := table byte.toNat byte.toNat_lt
  obtain ⟨reads, -, plain⟩ := hexByte_digit small
  rw [UInt8.ofNat_toNat, alike, reads] at here
  refine ⟨here.symm, ?_⟩
  rintro rfl
  exact plain alike.symm

/-- The digits of a header's number. -/
theorem lengthPrefix_of_lt (small : value < 65536)
    : lengthPrefix value
      = [hexByte (value / 4096), hexByte (value / 256 % 16), hexByte (value / 16 % 16),
          hexByte (value % 16)] := by
  have zero : (48 : UInt8) = hexByte 0 := by decide
  have short {n : Nat} (less : n < 16) : Nat.toDigits 16 n = [n.digitChar] :=
    Nat.toDigits_of_lt_base less
  have long {n : Nat} (more : 16 ≤ n)
      : Nat.toDigits 16 n = Nat.toDigits 16 (n / 16) ++ [(n % 16).digitChar] :=
    Nat.toDigits_of_base_le (by decide) more
  rw [lengthPrefix, zero]
  by_cases one : value < 16
  · rw [short one, show value / 4096 = 0 by omega, show value / 256 % 16 = 0 by omega,
      show value / 16 % 16 = 0 by omega, show value % 16 = value by omega]
    rfl
  · rw [long (by omega)]
    by_cases two : value / 16 < 16
    · rw [short two, show value / 4096 = 0 by omega, show value / 256 % 16 = 0 by omega,
        show value / 16 % 16 = value / 16 by omega]
      rfl
    · rw [long (by omega)]
      by_cases three : value / 16 / 16 < 16
      · rw [short three, show value / 4096 = 0 by omega,
          show value / 256 % 16 = value / 16 / 16 by omega]
        rfl
      · rw [long (by omega), short (by omega), show value / 4096 = value / 16 / 16 / 16 by omega,
          show value / 256 % 16 = value / 16 / 16 % 16 by omega]
        rfl

-- One packet

theorem parseHeader_eq {a b c d : UInt8} (plain : a ≠ 43)
    : parseHeader [a, b, c, d] = gitHeader [a, b, c, d] := by
  simp only [parseHeader, List.head?_cons, Option.some.injEq, plain, if_false, gitHeader,
    List.cons_ne_nil, List.foldl_cons, List.foldl_nil]
  cases hexDigit a <;> cases hexDigit b <;> cases hexDigit c <;> cases hexDigit d <;> simp

variable {data : Bytes} {packet : Packet}

/-- A decoded packet is the one its header announces. -/
theorem decodeOne_packet {consumed : Nat}
    (long : 4 ≤ data.length) (read : decodeOne data = .ok (some (packet, consumed)))
    : parseHeader (data.take 4) = some packet.field
      ∧ packet.Fits
      ∧ consumed = packetLength packet.field
      ∧ consumed ≤ data.length
      ∧ data = data.take 4 ++ packet.payload ++ data.drop consumed := by
  rw [decodeOne] at read
  split at read
  · cases read
  · rename_i header
    cases read
    exact ⟨header, by decide, rfl, long, by simp [Packet.payload]⟩
  · rename_i header
    cases read
    exact ⟨header, by decide, rfl, long, by simp [Packet.payload]⟩
  · rename_i header
    cases read
    exact ⟨header, by decide, rfl, long, by simp [Packet.payload]⟩
  · cases read
  · rename_i notFlush notDelim notEnd notThree header
    split at read
    · cases read
    · split at read
      · cases read
      · cases read
        have least : 4 ≤ consumed := by
          have zero : consumed ≠ 0 := notFlush
          have one : consumed ≠ 1 := notDelim
          have two : consumed ≠ 2 := notEnd
          have three : consumed ≠ 3 := notThree
          omega
        have count : ((data.take consumed).drop 4).length + 4 = consumed := by
          rw [List.length_drop, List.length_take]
          omega
        have front : (data.take consumed).take 4 = data.take 4 := by
          rw [List.take_take, Nat.min_eq_left (by omega)]
        refine ⟨?_, ?_, ?_, by omega, ?_⟩
        · rw [header, Packet.field, count]
        · rw [Packet.Fits, Packet.payload, count]
          omega
        · rw [Packet.field, count, packetLength, if_neg (by omega)]
        · rw [Packet.payload, ← front, List.take_append_drop, List.take_append_drop]

theorem packetLength_least (field : Nat) : 4 ≤ packetLength field := by
  rw [packetLength]
  split
  · exact Nat.le_refl 4
  · omega

/-- A packet that stands behind its header is decoded. -/
theorem decodeOne_of (fits : packet.Fits)
    (header : parseHeader (data.take 4) = some packet.field) (long : 4 ≤ data.length)
    (stands : packet.payload <+: data.drop 4)
    : decodeOne data = .ok (some (packet, packetLength packet.field)) := by
  rw [decodeOne, header]
  cases packet with
  | flush => rfl
  | delim => rfl
  | responseEnd => rfl
  | data payload =>
      obtain ⟨rest, whole⟩ := stands
      have split : data = data.take 4 ++ (payload ++ rest) := by
        rw [show payload ++ rest = data.drop 4 from whole, List.take_append_drop]
      have front : (data.take 4).length = 4 := by
        rw [List.length_take]
        exact Nat.min_eq_left long
      have count : data.length = 4 + (payload.length + rest.length) := by
        conv_lhs => rw [split]
        rw [List.length_append, front, List.length_append]
      have kept : (data.take (payload.length + 4)).drop 4 = payload := by
        rw [List.drop_take, Nat.add_sub_cancel, ← whole]
        exact List.take_left
      have within : ¬payload.length + 4 > maxPktLine := Nat.not_lt.mpr fits
      change (if payload.length + 4 > maxPktLine then _
        else if payload.length + 4 > data.length then _
        else Except.ok (some (Packet.data ((data.take (payload.length + 4)).drop 4),
          payload.length + 4))) = _
      rw [if_neg within, if_neg (by omega), kept, Packet.field, packetLength, if_neg (by omega)]

/-- More data behind a packet changes nothing about it, and less neither. -/
theorem decodeOne_append {consumed : Nat} (long : 4 ≤ data.length)
    (read : decodeOne data = .ok (some (packet, consumed))) (rest : Bytes)
    : decodeOne (data.take consumed ++ rest) = .ok (some (packet, consumed)) := by
  obtain ⟨header, fits, count, within, split⟩ := decodeOne_packet long read
  have size := packetLength_least packet.field
  have front : (data.take 4).length = 4 := by
    rw [List.length_take]
    exact Nat.min_eq_left long
  have taken : data.take consumed = data.take 4 ++ packet.payload := by
    have cut : (data.take 4 ++ packet.payload).length = consumed := by
      have whole := congrArg List.length split
      rw [List.length_append, List.length_drop] at whole
      omega
    conv_lhs => rw [split]
    exact List.take_left' cut
  rw [count]
  rw [count] at taken
  apply decodeOne_of fits
  · rw [taken, List.append_assoc, List.take_left' front, header]
  · rw [taken, List.append_assoc, List.length_append, front]
    omega
  · rw [taken, List.append_assoc, List.drop_left' front]
    exact List.prefix_append _ _

/-- What decoding gives, packet by packet, whatever bounds the packets left. -/
theorem decodeAll_of_le {bound : Nat} (enough : data.length ≤ bound)
    : decodeAll bound data = decode data := by
  induction bound using Nat.strongRecOn generalizing data with
  | ind bound ih =>
      cases bound with
      | zero =>
          rw [List.eq_nil_of_length_eq_zero (Nat.le_zero.mp enough)]
          rfl
      | succ bound =>
          cases data with
          | nil => rfl
          | cons byte rest =>
              rw [decode, List.length_cons, decodeAll, decodeAll]
              by_cases short : (byte :: rest).length < 4
              · rw [if_pos short, if_pos short]
              · rw [if_neg short, if_neg short]
                cases read : decodeOne (byte :: rest) with
                | error refusal => rfl
                | ok outcome =>
                    cases outcome with
                    | none => rfl
                    | some found =>
                        obtain ⟨packet, consumed⟩ := found
                        obtain ⟨-, -, count, -, -⟩ := decodeOne_packet (Nat.le_of_not_lt short) read
                        have size := packetLength_least packet.field
                        simp only [List.length_cons] at enough short
                        have left : ((byte :: rest).drop consumed).length ≤ rest.length := by
                          rw [List.length_drop, List.length_cons]
                          omega
                        dsimp only
                        rw [ih bound (Nat.lt_succ_self _) (by omega),
                          ih rest.length (by omega) left]

/-- Decoding reads the packet at the head and goes on behind it. -/
theorem decode_eq (data : Bytes)
    : decode data
      = if data.length < 4 then .ok []
        else
          match decodeOne data with
          | .error refusal => .error refusal
          | .ok none => .error truncated
          | .ok (some (packet, consumed)) =>
              (decode (data.drop consumed)).map (packet :: ·) := by
  cases data with
  | nil => rfl
  | cons byte rest =>
      conv_lhs => rw [decode, List.length_cons, decodeAll]
      by_cases short : (byte :: rest).length < 4
      · rw [if_pos short, if_pos short]
      · rw [if_neg short, if_neg short]
        cases read : decodeOne (byte :: rest) with
        | error refusal => rfl
        | ok outcome =>
            cases outcome with
            | none => rfl
            | some found =>
                obtain ⟨packet, consumed⟩ := found
                obtain ⟨-, -, count, -, -⟩ := decodeOne_packet (Nat.le_of_not_lt short) read
                have size := packetLength_least packet.field
                dsimp only
                rw [decodeAll_of_le]
                rw [List.length_drop, List.length_cons]
                omega

variable {packets : List Packet}

theorem decode_eq_ok (long : 4 ≤ data.length)
    : decode data = .ok packets
      ↔ ∃ packet consumed rest,
          decodeOne data = .ok (some (packet, consumed))
          ∧ decode (data.drop consumed) = .ok rest
          ∧ packets = packet :: rest := by
  rw [decode_eq, if_neg (Nat.not_lt.mpr long)]
  cases read : decodeOne data with
  | error refusal => simp
  | ok outcome =>
      cases outcome with
      | none => simp
      | some found =>
          obtain ⟨packet, consumed⟩ := found
          cases later : decode (data.drop consumed) with
          | error refusal => simp [Except.map, later]
          | ok rest => simp [Except.map, later, eq_comm]

theorem decode_short (short : data.length < 4) : decode data = .ok [] := by
  rw [decode_eq, if_pos short]

-- Written packets

theorem Packet.encode_eq (fits : packet.Fits)
    : packet.encode = lengthPrefix packet.field ++ packet.payload := by
  cases packet with
  | data payload => rfl
  | flush => rfl
  | delim => rfl
  | responseEnd => rfl

theorem Packet.field_lt (fits : packet.Fits) : packet.field < 65536 := by
  cases packet with
  | data payload =>
      simp only [Fits, maxPktLine, Packet.payload] at fits
      simp only [field]
      omega
  | flush => decide
  | delim => decide
  | responseEnd => decide

/-- Git reads a written length back, and so does the gateway. -/
theorem header_lengthPrefix (small : value < 65536)
    : gitHeader (lengthPrefix value) = some value
      ∧ parseHeader (lengthPrefix value) = some value
      ∧ (lengthPrefix value).length = 4
      ∧ (lengthPrefix value).head? ≠ some 43 := by
  obtain ⟨first, -, plain⟩ := @hexByte_digit (value / 4096) (by omega)
  obtain ⟨second, -, -⟩ := @hexByte_digit (value / 256 % 16) (by omega)
  obtain ⟨third, -, -⟩ := @hexByte_digit (value / 16 % 16) (by omega)
  obtain ⟨fourth, -, -⟩ := @hexByte_digit (value % 16) (by omega)
  have read : gitHeader (lengthPrefix value) = some value := by
    rw [lengthPrefix_of_lt small, gitHeader, first, second, third, fourth]
    simp only [Option.bind_eq_bind, Option.bind_some, Option.pure_def, Option.some.injEq]
    omega
  refine ⟨read, ?_, ?_, ?_⟩
  · rw [← read, lengthPrefix_of_lt small]
    exact parseHeader_eq plain
  · rw [lengthPrefix_of_lt small]
    rfl
  · rw [lengthPrefix_of_lt small]
    simpa using plain

theorem encode_length (fits : packet.Fits)
    : packet.encode.length = packetLength packet.field ∧ 4 ≤ packet.encode.length := by
  obtain ⟨-, -, count, -⟩ := header_lengthPrefix (packet.field_lt fits)
  have sized : packet.encode.length = 4 + packet.payload.length := by
    rw [packet.encode_eq fits, List.length_append, count]
  refine ⟨?_, by omega⟩
  rw [sized]
  cases packet with
  | data payload =>
      rw [Packet.field, packetLength, if_neg (by omega), Packet.payload, Nat.add_comm]
  | flush => rfl
  | delim => rfl
  | responseEnd => rfl

theorem decodeOne_encode (fits : packet.Fits) (rest : Bytes)
    : decodeOne (packet.encode ++ rest) = .ok (some (packet, packet.encode.length)) := by
  obtain ⟨-, read, count, -⟩ := header_lengthPrefix (packet.field_lt fits)
  have head : (packet.encode ++ rest).take 4 = lengthPrefix packet.field := by
    rw [packet.encode_eq fits, List.append_assoc]
    exact List.take_left' count
  rw [(encode_length fits).1]
  apply decodeOne_of fits
  · rw [head, read]
  · rw [packet.encode_eq fits, List.append_assoc, List.length_append, count]
    omega
  · rw [packet.encode_eq fits, List.append_assoc, List.drop_left' count]
    exact List.prefix_append _ _

theorem decode_encodePackets (fits : ∀ packet ∈ packets, packet.Fits)
    : decode (encodePackets packets) = .ok packets := by
  induction packets with
  | nil => rfl
  | cons packet packets ih =>
      obtain ⟨first, others⟩ := List.forall_mem_cons.mp fits
      have written : encodePackets (packet :: packets) = packet.encode ++ encodePackets packets :=
        List.flatMap_cons
      have long : 4 ≤ (encodePackets (packet :: packets)).length := by
        rw [written, List.length_append]
        have := (encode_length first).2
        omega
      rw [decode_eq_ok long, written]
      refine ⟨packet, packet.encode.length, packets, decodeOne_encode first _, ?_, rfl⟩
      rw [List.drop_left]
      exact ih others

-- Read packets, written out again

/-- Bytes that Git reads as a length are its digits, up to case. -/
theorem lowerCase_of_gitHeader {header : Bytes} (read : gitHeader header = some value)
    : value < 65536 ∧ header.map lowerCase = lengthPrefix value := by
  match header, read with
  | [a, b, c, d], read =>
      simp only [gitHeader, Option.bind_eq_bind, Option.pure_def] at read
      obtain ⟨first, readFirst, read⟩ := Option.bind_eq_some_iff.mp read
      obtain ⟨second, readSecond, read⟩ := Option.bind_eq_some_iff.mp read
      obtain ⟨third, readThird, read⟩ := Option.bind_eq_some_iff.mp read
      obtain ⟨fourth, readFourth, read⟩ := Option.bind_eq_some_iff.mp read
      cases read
      obtain ⟨smallFirst, lowerFirst⟩ := lowerCase_of_hexDigit readFirst
      obtain ⟨smallSecond, lowerSecond⟩ := lowerCase_of_hexDigit readSecond
      obtain ⟨smallThird, lowerThird⟩ := lowerCase_of_hexDigit readThird
      obtain ⟨smallFourth, lowerFourth⟩ := lowerCase_of_hexDigit readFourth
      have small : ((first * 16 + second) * 16 + third) * 16 + fourth < 65536 := by omega
      refine ⟨small, ?_⟩
      generalize whole : ((first * 16 + second) * 16 + third) * 16 + fourth = value at small
      rw [lengthPrefix_of_lt small, show value / 4096 = first by omega,
        show value / 256 % 16 = second by omega, show value / 16 % 16 = third by omega,
        show value % 16 = fourth by omega]
      simp only [List.map_cons, List.map_nil, lowerFirst, lowerSecond, lowerThird, lowerFourth]

theorem gitHeader_of_lowerCase {header : Bytes} (small : value < 65536)
    (alike : header.map lowerCase = lengthPrefix value)
    : gitHeader header = some value ∧ header.length = 4 ∧ header.head? ≠ some 43 := by
  rw [lengthPrefix_of_lt small] at alike
  have count := congrArg List.length alike
  rw [List.length_map] at count
  match header, count with
  | [a, b, c, d], count =>
      simp only [List.map_cons, List.map_nil, List.cons.injEq, and_true] at alike
      obtain ⟨first, second, third, fourth⟩ := alike
      obtain ⟨readFirst, plain⟩ := hexDigit_of_lowerCase (by omega) first
      have readSecond := (hexDigit_of_lowerCase (by omega) second).1
      have readThird := (hexDigit_of_lowerCase (by omega) third).1
      have readFourth := (hexDigit_of_lowerCase (by omega) fourth).1
      refine ⟨?_, rfl, by simpa using plain⟩
      rw [gitHeader, readFirst, readSecond, readThird, readFourth]
      simp only [Option.bind_eq_bind, Option.bind_some, Option.pure_def, Option.some.injEq]
      omega

theorem Boundary.behind {field : Nat}
    (header : gitHeader (data.take 4) = some field) (whole : packetLength field ≤ data.length)
    {position : Nat} (boundary : Boundary (data.drop (packetLength field)) position)
    : Boundary data (packetLength field + position) := by
  induction boundary with
  | start =>
      have first : Boundary data (0 + packetLength field) :=
        .next .start (by rw [List.drop_zero]; exact header) (by omega)
      rwa [Nat.zero_add] at first
  | @next position next before header' whole' ih =>
      rw [List.drop_drop] at header'
      rw [List.length_drop] at whole'
      rw [← Nat.add_assoc]
      exact .next ih header' (by omega)

theorem PlainHeaders.behind {field : Nat} (plain : PlainHeaders data)
    (header : gitHeader (data.take 4) = some field) (whole : packetLength field ≤ data.length)
    : PlainHeaders (data.drop (packetLength field)) := by
  intro position boundary
  have here := plain _ (boundary.behind header whole)
  rw [List.drop_drop, List.length_drop]
  rcases here with nothing | ⟨more, sign⟩
  · exact .inl (by omega)
  · exact .inr ⟨by omega, sign⟩

/-- The first packet that is read back is the one Git reads. -/
theorem ReadsBack.head
    (fits : packet.Fits) (reads : ReadsBack (packet :: packets) data)
    : gitHeader (data.take 4) = some packet.field
      ∧ data.head? ≠ some 43
      ∧ packetLength packet.field ≤ data.length
      ∧ ReadsBack packets (data.drop (packetLength packet.field)) := by
  cases reads with
  | @cons _ _ header rest alike tail =>
      have spelled : header.map lowerCase = lengthPrefix packet.field := by
        rw [packet.encode_eq fits] at alike
        exact List.append_cancel_right alike
      obtain ⟨read, count, plain⟩ := gitHeader_of_lowerCase (packet.field_lt fits) spelled
      have front : (header ++ packet.payload ++ rest).take 4 = header := by
        rw [List.append_assoc]
        exact List.take_left' count
      have size : (header ++ packet.payload).length = packetLength packet.field := by
        rw [← (encode_length fits).1, ← alike, List.length_append, List.length_append,
          List.length_map]
      refine ⟨by rw [front, read], ?_, ?_, ?_⟩
      · cases header with
        | nil => cases count
        | cons byte header => exact plain
      · rw [List.length_append, size]
        exact Nat.le_add_right _ _
      · rw [List.drop_left' size]
        exact tail

theorem ReadsBack.behind
    (fits : ∀ packet ∈ packets, packet.Fits) (reads : ReadsBack packets data) {position : Nat}
    (boundary : Boundary data position)
    : ∃ rest, (∀ packet ∈ rest, packet.Fits) ∧ ReadsBack rest (data.drop position) := by
  induction boundary with
  | start => exact ⟨packets, fits, reads⟩
  | @next position field before header whole ih =>
      obtain ⟨rest, fits, reads⟩ := ih
      cases rest with
      | nil =>
          generalize data.drop position = left at reads header
          cases reads
          cases header
      | cons packet rest =>
          obtain ⟨first, others⟩ := List.forall_mem_cons.mp fits
          obtain ⟨read, -, -, tail⟩ := reads.head first
          cases header.symm.trans read
          rw [List.drop_drop] at tail
          exact ⟨rest, others, tail⟩

theorem ReadsBack.plainHeaders
    (fits : ∀ packet ∈ packets, packet.Fits) (reads : ReadsBack packets data)
    : PlainHeaders data := by
  intro position boundary
  obtain ⟨rest, fits, reads⟩ := reads.behind fits boundary
  cases rest with
  | nil =>
      generalize left : data.drop position = bytes at reads
      cases reads
      exact .inl (List.drop_eq_nil_iff.mp left)
  | cons packet rest =>
      obtain ⟨-, plain, whole, -⟩ := reads.head (List.forall_mem_cons.mp fits).1
      have least := packetLength_least packet.field
      rw [List.length_drop] at whole
      exact .inr ⟨by omega, plain⟩

theorem parseHeader_take (long : 4 ≤ data.length) (plain : data.head? ≠ some 43)
    : parseHeader (data.take 4) = gitHeader (data.take 4) := by
  match data, long with
  | a :: b :: c :: d :: rest, _ =>
      have first : a ≠ 43 := by simpa using plain
      exact parseHeader_eq first

theorem fits_of_decode (read : decode data = .ok packets)
    : ∀ packet ∈ packets, packet.Fits := by
  induction packets generalizing data with
  | nil => simp
  | cons packet packets ih =>
      by_cases short : data.length < 4
      · rw [decode_short short] at read
        cases read
      · have long := Nat.le_of_not_lt short
        obtain ⟨first, consumed, rest, one, later, whole⟩ := (decode_eq_ok long).mp read
        cases whole
        exact List.forall_mem_cons.mpr ⟨(decodeOne_packet long one).2.1, ih later⟩

/-- A stream whose headers are plain is read back. -/
theorem readsBack_of_plainHeaders
    (read : decode data = .ok packets) (plain : PlainHeaders data)
    : ReadsBack packets data := by
  induction packets generalizing data with
  | nil =>
      rcases plain 0 .start with nothing | ⟨long, -⟩
      · rw [List.eq_nil_of_length_eq_zero (Nat.le_zero.mp nothing)]
        exact .nil
      · obtain ⟨_, _, _, -, -, whole⟩ := (decode_eq_ok (by omega)).mp read
        cases whole
  | cons packet packets ih =>
      rcases plain 0 .start with nothing | ⟨long, sign⟩
      · rw [decode_short (by omega)] at read
        cases read
      · rw [Nat.zero_add] at long
        obtain ⟨first, consumed, rest, one, later, whole⟩ := (decode_eq_ok long).mp read
        cases whole
        obtain ⟨header, fits, count, within, split⟩ := decodeOne_packet long one
        rw [parseHeader_take long sign] at header
        subst count
        obtain ⟨-, spelled⟩ := lowerCase_of_gitHeader header
        rw [split]
        refine .cons ?_ (ih later (plain.behind header within))
        rw [spelled, packet.encode_eq fits]

-- Up to the first flush

theorem decode_cons
    (read : decode data = .ok (packet :: packets))
    : 4 ≤ data.length
      ∧ ∃ consumed,
          decodeOne data = .ok (some (packet, consumed))
          ∧ 4 ≤ consumed
          ∧ consumed ≤ data.length
          ∧ decode (data.drop consumed) = .ok packets := by
  by_cases short : data.length < 4
  · rw [decode_short short] at read
    cases read
  · have long := Nat.le_of_not_lt short
    obtain ⟨first, consumed, rest, one, later, whole⟩ := (decode_eq_ok long).mp read
    cases whole
    obtain ⟨-, -, count, within, -⟩ := decodeOne_packet long one
    exact ⟨long, consumed, one, count ▸ packetLength_least _, within, later⟩

/-- Decoding stops behind the first flush packet, whatever follows. -/
theorem decodeFrom_flush (others : Packet.flush ∉ packets) {bound : Nat}
    {head rest : Bytes} (enough : (head ++ rest).length ≤ bound)
    (read : decode head = .ok (packets ++ [.flush]))
    : decodeFrom bound (head ++ rest) = .ok (packets ++ [.flush]) := by
  induction packets generalizing bound head with
  | nil =>
      obtain ⟨long, consumed, one, least, within, -⟩ := decode_cons read
      have more := decodeOne_append long one (head.drop consumed ++ rest)
      rw [← List.append_assoc, List.take_append_drop] at more
      rw [List.length_append] at enough
      obtain ⟨bound, rfl⟩ : ∃ less, bound = less + 1 := ⟨bound - 1, by omega⟩
      rw [decodeFrom, if_neg (by rw [List.length_append]; omega), more]
      rfl
  | cons packet packets ih =>
      rw [List.cons_append] at read
      simp only [List.mem_cons, not_or] at others
      obtain ⟨different, later⟩ := others
      obtain ⟨long, consumed, one, least, within, tail⟩ := decode_cons read
      have more := decodeOne_append long one (head.drop consumed ++ rest)
      rw [← List.append_assoc, List.take_append_drop] at more
      rw [List.length_append] at enough
      obtain ⟨bound, rfl⟩ : ∃ less, bound = less + 1 := ⟨bound - 1, by omega⟩
      rw [decodeFrom, if_neg (by rw [List.length_append]; omega), more]
      have left : (head.drop consumed ++ rest).length ≤ bound := by
        rw [List.length_append, List.length_drop]
        omega
      simp only [if_neg (Ne.symm different)]
      rw [List.drop_append_of_le_length within, ih later left tail]
      rfl

/-- Without a flush packet, decoding reads the whole stream. -/
theorem decodeFrom_noFlush {bound : Nat} (enough : data.length ≤ bound)
    (never
      : ∀ head packets,
          head <+: data → decode head = .ok (packets ++ [.flush]) → Packet.flush ∈ packets)
    : decodeFrom bound data = decode data := by
  induction bound generalizing data with
  | zero =>
      rw [List.eq_nil_of_length_eq_zero (Nat.le_zero.mp enough)]
      rfl
  | succ bound ih =>
      rw [decode_eq, decodeFrom]
      by_cases short : data.length < 4
      · rw [if_pos short, if_pos short]
      · rw [if_neg short, if_neg short]
        have long := Nat.le_of_not_lt short
        cases one : decodeOne data with
        | error refusal => rfl
        | ok outcome =>
            cases outcome with
            | none => rfl
            | some found =>
                obtain ⟨packet, consumed⟩ := found
                obtain ⟨-, -, count, within, -⟩ := decodeOne_packet long one
                have least := packetLength_least packet.field
                have alone := decodeOne_append long one
                have size : (data.take consumed).length = consumed := by
                  rw [List.length_take]
                  exact Nat.min_eq_left within
                -- A stream of the packet and what decodes behind it.
                have joined (head : Bytes) {packets : List Packet}
                    (read : decode head = .ok packets)
                    : decode (data.take consumed ++ head) = .ok (packet :: packets) := by
                  rw [decode_eq_ok (by rw [List.length_append]; omega)]
                  refine ⟨packet, consumed, packets, alone head, ?_, rfl⟩
                  rw [List.drop_left' size]
                  exact read
                by_cases ends : packet = .flush
                · subst ends
                  have flushed := joined [] rfl
                  rw [List.append_nil] at flushed
                  cases never _ [] (List.take_prefix _ _) flushed
                · simp only [if_neg ends]
                  rw [ih]
                  · rw [List.length_drop]
                    omega
                  · rintro head packets ⟨rest, split⟩ read
                    have before : data.take consumed ++ head <+: data :=
                      ⟨rest, by rw [List.append_assoc, split, List.take_append_drop]⟩
                    rcases List.mem_cons.mp (never _ (packet :: packets) before (joined _ read))
                      with first | later
                    · exact absurd first.symm ends
                    · exact later

-- The framing grammar

/-- Every list of packets is decoded from its encoding; what is decoded, written out again, is the
input up to the case of header digits exactly when its headers are plain; and decoding up to the
first flush is decoding what ends there, or everything where nothing does.
-/
theorem decode_reads_grammar (packets : List Packet) (data : Bytes)
    : ((∀ packet ∈ packets, packet.Fits) → decode (encodePackets packets) = .ok packets)
      ∧ (decode data = .ok packets → (ReadsBack packets data ↔ PlainHeaders data))
      ∧ (∀ head rest,
          decode head = .ok (packets ++ [.flush])
          → Packet.flush ∉ packets
          → decodeUntilFlush (head ++ rest) = decode head)
      ∧ ((∀ head packets,
            head <+: data → decode head = .ok (packets ++ [.flush]) → Packet.flush ∈ packets)
          → decodeUntilFlush data = decode data) := by
  refine ⟨decode_encodePackets, ?_, ?_, ?_⟩
  · intro read
    constructor
    · intro reads
      exact reads.plainHeaders (fits_of_decode read)
    · intro plain
      exact readsBack_of_plainHeaders read plain
  · intro head rest read others
    rw [read]
    exact decodeFrom_flush others (Nat.le_refl _) read
  · intro never
    exact decodeFrom_noFlush (Nat.le_refl _) never

/-- A request of one line and a flush. -/
theorem want_reads_grammar
    : decode (encodePackets [.data [119, 97, 110, 116], .flush])
        = .ok [.data [119, 97, 110, 116], .flush]
      ∧ ReadsBack [.flush] flushPkt
      ∧ decodeUntilFlush (flushPkt ++ [80, 65, 67, 75]) = decode flushPkt := by
  obtain ⟨written, -⟩ := decode_reads_grammar [.data [119, 97, 110, 116], .flush] []
  obtain ⟨-, readBack, -⟩ := decode_reads_grammar [.flush] flushPkt
  obtain ⟨-, -, flushed, -⟩ := decode_reads_grammar [] flushPkt
  refine ⟨written (by decide), (readBack (by decide)).mpr ?_,
    flushed flushPkt _ (by decide) (by decide)⟩
  intro position boundary
  cases boundary with
  | start => exact .inr (by decide)
  | @next position field before header whole =>
      have least := packetLength_least field
      have size : flushPkt.length = 4 := rfl
      exact .inl (by omega)

/-- A plus sign is read as a digit, and a tail of two bytes is skipped. -/
theorem plus_and_tail_not_read_back
    : decode [43, 48, 48, 56, 119, 97, 110, 116] = .ok [.data [119, 97, 110, 116]]
      ∧ ¬ReadsBack [.data [119, 97, 110, 116]] [43, 48, 48, 56, 119, 97, 110, 116]
      ∧ decode [48, 48, 48, 48, 97, 98] = .ok [.flush]
      ∧ ¬ReadsBack [.flush] [48, 48, 48, 48, 97, 98] := by
  refine ⟨by decide, ?_, by decide, ?_⟩
  · intro reads
    rcases reads.plainHeaders (by decide) 0 .start with nothing | ⟨-, sign⟩
    · exact absurd nothing (by decide)
    · exact sign rfl
  · intro reads
    have second : Boundary [48, 48, 48, 48, 97, 98] (0 + packetLength 0) :=
      .next .start rfl (by decide)
    rcases reads.plainHeaders (by decide) _ second with nothing | ⟨long, -⟩
    · exact absurd nothing (by decide)
    · exact absurd long (by decide)

end Gfs.Service
