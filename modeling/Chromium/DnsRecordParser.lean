import Chromium.DnsName

/-!
# Records in DNS packets

`net/dns/dns_response.cc`: the parser walks over the questions and the records of a packet.
-/
namespace Chromium.Dns

open WireFormat

/-! ### Fields -/

/-- `BigEndianReader` up to the end of the packet: the bytes, and where to read on. -/
def readPiece (packet : Packet) (ptr size : ℕ) : Option (List Byte × ℕ) :=
  if ptr + size > packet.length then none else some (packet.slice ptr size, ptr + size)

def readNumber (packet : Packet) (ptr size : ℕ) : Option (ℕ × ℕ) :=
  (readPiece packet ptr size).map fun piece => (bigEndian piece.1, piece.2)

/-- The data is a part of the packet, and where it stands is known. -/
structure DnsResourceRecord where
  name : List Byte
  type : ℕ
  klass : ℕ
  ttl : ℕ
  rdataPos : ℕ
  rdata : List Byte

structure DnsRecordParser where
  packet : Packet
  cur : ℕ

/-- What comes after the name of a record. -/
def readFields (packet : Packet) (name : List Byte) (ptr : ℕ) : Option (DnsResourceRecord × ℕ) :=
  (readNumber packet ptr 2).bind fun type =>
  (readNumber packet type.2 2).bind fun klass =>
  (readNumber packet klass.2 4).bind fun ttl =>
  (readNumber packet ttl.2 2).bind fun rdlen =>
  (readPiece packet rdlen.2 rdlen.1).map fun rdata =>
    ({ name := name, type := type.1, klass := klass.1, ttl := ttl.1, rdataPos := rdlen.2,
       rdata := rdata.1 }, rdata.2)

namespace DnsRecordParser

/-- The inner `none` is a record that cannot be read; the cursor stays then. -/
def readRecord (parser : DnsRecordParser) :
    Option (Option (DnsResourceRecord × DnsRecordParser)) :=
  (readName parser.packet parser.cur (some [])).map fun result =>
    if result.1 = 0 then none
    else (readFields parser.packet (result.2.getD []) (parser.cur + result.1)).map fun record =>
      (record.1, { parser with cur := record.2 })

/-- The type and the class of a question have two bytes each. -/
def skipQuestion (parser : DnsRecordParser) : Option (Option DnsRecordParser) :=
  (readName parser.packet parser.cur none).map fun result =>
    if result.1 = 0 then none
    else if parser.cur + result.1 + 2 * 2 > parser.packet.length then none
    else some { parser with cur := parser.cur + result.1 + 2 * 2 }

end DnsRecordParser

/-! ### The cursor -/

section Cursor
variable {packet : Packet}

lemma readPiece_eq_some {ptr size : ℕ} {piece : List Byte × ℕ}
    (h : readPiece packet ptr size = some piece) :
    ptr + size ≤ packet.length ∧ piece = (packet.slice ptr size, ptr + size) := by
  unfold readPiece at h
  split_ifs at h with hend
  exact ⟨not_lt.mp hend, (Option.some.inj h).symm⟩

lemma readNumber_eq_some {ptr size : ℕ} {number : ℕ × ℕ}
    (h : readNumber packet ptr size = some number) :
    ptr + size ≤ packet.length ∧ number = (bigEndian (packet.slice ptr size), ptr + size) := by
  obtain ⟨piece, hpiece, rfl⟩ := Option.map_eq_some_iff.mp h
  obtain ⟨hle, rfl⟩ := readPiece_eq_some hpiece
  exact ⟨hle, rfl⟩

/-- The fields of a record, one after the other. -/
structure Fields (packet : Packet) (ptr : ℕ) (record : DnsResourceRecord) (next : ℕ) : Prop where
  type : record.type = bigEndian (packet.slice ptr 2)
  klass : record.klass = bigEndian (packet.slice (ptr + 2) 2)
  ttl : record.ttl = bigEndian (packet.slice (ptr + 4) 4)
  rdataPos : record.rdataPos = ptr + 10
  rdata : record.rdata = packet.slice record.rdataPos (bigEndian (packet.slice (ptr + 8) 2))
  next_eq : next = record.rdataPos + record.rdata.length
  next_le : next ≤ packet.length

lemma fields_of_readFields {name : List Byte} {ptr next : ℕ} {record : DnsResourceRecord}
    (h : readFields packet name ptr = some (record, next)) :
    record.name = name ∧ Fields packet ptr record next := by
  obtain ⟨type, htype, h⟩ := Option.bind_eq_some_iff.mp h
  obtain ⟨klass, hklass, h⟩ := Option.bind_eq_some_iff.mp h
  obtain ⟨ttl, httl, h⟩ := Option.bind_eq_some_iff.mp h
  obtain ⟨rdlen, hrdlen, h⟩ := Option.bind_eq_some_iff.mp h
  obtain ⟨rdata, hrdata, h⟩ := Option.map_eq_some_iff.mp h
  obtain ⟨-, rfl⟩ := readNumber_eq_some htype
  obtain ⟨-, rfl⟩ := readNumber_eq_some hklass
  obtain ⟨-, rfl⟩ := readNumber_eq_some httl
  obtain ⟨-, rfl⟩ := readNumber_eq_some hrdlen
  obtain ⟨hle, rfl⟩ := readPiece_eq_some hrdata
  obtain ⟨rfl, rfl⟩ := Prod.mk.inj h
  exact ⟨rfl, rfl, rfl, rfl, rfl, rfl, by rw [length_slice hle], hle⟩

/-- A record is read where its name is one and its fields fit. -/
lemma readRecord_eq_some {parser next : DnsRecordParser} {record : DnsResourceRecord}
    (h : parser.readRecord = some (some (record, next))) :
    next.packet = parser.packet ∧ ∃ steps, Follows parser.packet parser.cur steps ∧
      visited steps ≤ parser.packet.length ∧ record.name = dotted (labels steps) ∧
      Fields parser.packet (parser.cur + taken steps) record next.cur := by
  obtain ⟨n, name, hname, hexists, hall⟩ := readName_stored parser.packet parser.cur []
  rw [DnsRecordParser.readRecord, hname, Option.map_some] at h
  have h := Option.some.inj h
  dsimp only at h
  split_ifs at h with hzero
  obtain ⟨steps, hsteps, hvisited⟩ := hexists.mp (Nat.pos_of_ne_zero hzero)
  obtain ⟨rfl, rfl⟩ := hall steps hsteps hvisited
  obtain ⟨fields, hfields, h⟩ := Option.map_eq_some_iff.mp h
  obtain ⟨rfl, rfl⟩ := Prod.mk.inj h
  obtain ⟨hrecord, hfields⟩ := fields_of_readFields hfields
  exact ⟨rfl, steps, hsteps, hvisited, hrecord, hfields⟩

lemma exists_readRecord (parser : DnsRecordParser) :
    ∃ result, parser.readRecord = some result := by
  obtain ⟨n, name, hname, -⟩ := readName_stored parser.packet parser.cur []
  rw [DnsRecordParser.readRecord, hname]
  exact ⟨_, rfl⟩

/-- `ReadName` reads bytes of the packet only and returns, with the name if there is one that is
not too long; and neither a record nor a question moves the cursor out of the packet. -/
theorem readName_spec (packet : Packet) (pos : ℕ) (out : List Byte) :
    (∃ n name, readName packet pos (some out) = some (n, some name) ∧
        (0 < n ↔ ∃ steps, Follows packet pos steps ∧ visited steps ≤ packet.length) ∧
        (∀ steps, Follows packet pos steps → visited steps ≤ packet.length →
          name = dotted (labels steps) ∧ n = taken steps) ∧
        (0 < n → readName packet pos none = some (n, none))) ∧
      (∃ n, readName packet pos none = some (n, none)) ∧
      (∃ result, DnsRecordParser.readRecord ⟨packet, pos⟩ = some result ∧
        ∀ record next, result = some (record, next) →
          next.packet = packet ∧ next.cur ≤ packet.length) ∧
      ∃ result, DnsRecordParser.skipQuestion ⟨packet, pos⟩ = some result ∧
        ∀ next, result = some next → next.packet = packet ∧ next.cur ≤ packet.length := by
  obtain ⟨n, name, hname, hexists, hall⟩ := readName_stored packet pos out
  obtain ⟨m, hnull, hle, htaken⟩ := readName_null packet pos
  refine ⟨⟨n, name, hname, hexists, hall, fun hn => ?_⟩, ⟨m, hnull⟩, ?_, ?_⟩
  · obtain ⟨steps, hsteps, hvisited⟩ := hexists.mp hn
    rw [hnull, htaken steps hsteps, (hall steps hsteps hvisited).2]
  · obtain ⟨result, hresult⟩ := exists_readRecord ⟨packet, pos⟩
    refine ⟨result, hresult, fun record next hrecord => ?_⟩
    rw [hrecord] at hresult
    obtain ⟨hpacket, steps, -, -, -, hfields⟩ := readRecord_eq_some hresult
    exact ⟨hpacket, hfields.next_le⟩
  · rw [DnsRecordParser.skipQuestion, hnull]
    refine ⟨_, rfl, fun next hnext => ?_⟩
    dsimp only at hnext
    split_ifs at hnext with hzero hend
    obtain rfl := Option.some.inj hnext
    exact ⟨rfl, not_lt.mp hend⟩

end Cursor

end Chromium.Dns
