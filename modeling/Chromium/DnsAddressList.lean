import Chromium.DnsRecordParser

/-!
# Address lists from DNS responses

`net/dns/dns_response.cc`: the answer to a question is accepted when its records lead from the
name in the question, by `CNAME` records, to addresses.
-/
namespace Chromium.Dns

open WireFormat

def kTypeA : ℕ := 1
def kTypeCNAME : ℕ := 5
def kTypeAAAA : ℕ := 28
def kClassIN : ℕ := 1
def kIPv4AddressSize : ℕ := 4
def kIPv6AddressSize : ℕ := 16
def kuint32max : ℕ := 2 ^ 32 - 1

/-- `sizeof(dns_protocol::Header)`. -/
def headerSize : ℕ := 12

/-! ### Questions -/

/-- The number with its high byte first. -/
def uint16Bytes (n : ℕ) : List Byte := [BitVec.ofNat 8 (n / 2 ^ 8), BitVec.ofNat 8 n]

/-- A name as it is written in a question. -/
def encodeName (labels : List (List Byte)) : List Byte :=
  labels.flatMap (fun label => BitVec.ofNat 8 label.length :: label) ++ [0]

/-- A query is built from a name that `DNSDomainFromDot` has encoded. -/
structure DnsQuery where
  id : ℕ
  labels : List (List Byte)
  qtype : ℕ
  qtype_lt : qtype < 2 ^ 16
  label_ne_nil : ∀ label ∈ labels, label ≠ []
  label_length : ∀ label ∈ labels, label.length ≤ 63

def DnsQuery.qname (query : DnsQuery) : List Byte := encodeName query.labels

def DnsQuery.question (query : DnsQuery) : List Byte :=
  query.qname ++ (uint16Bytes query.qtype ++ uint16Bytes kClassIN)

def DnsQuery.size (query : DnsQuery) : ℕ := headerSize + query.question.length

/-- Every label takes a byte at least, so that the loop ends before its fuel. -/
def dnsDomainLoop (domain : List Byte) : ℕ → ℕ → List Byte → List Byte
  | 0, _, ret => ret
  | fuel + 1, i, ret =>
    match domain[i]? with
    | none => ret
    | some b =>
      if b = 0 then ret
      else if b.toNat > 63 then []
      else if b.toNat + i + 1 > domain.length then []
      else
        dnsDomainLoop domain fuel (i + (b.toNat + 1))
          ((if i ≠ 0 then ret ++ [0x2e] else ret) ++ (domain.drop (i + 1)).take b.toNat)

/-- `DNSDomainToString`. -/
def dnsDomainToString (domain : List Byte) : List Byte :=
  dnsDomainLoop domain (domain.length + 1) 0 []

/-! ### Responses -/

/-- The buffer may be longer than the packet that the parser reads. -/
structure DnsResponse where
  ioBuffer : Packet
  parser : DnsRecordParser

/-- The first bytes of a buffer. -/
def Packet.take (packet : Packet) (nbytes : ℕ) : Packet where
  data := packet.data.take nbytes
  length_lt := lt_of_le_of_lt (List.length_take_le' nbytes packet.data) packet.length_lt

/-- A response is parsed when it answers the query. -/
def initParse (ioBuffer : Packet) (nbytes : ℕ) (query : DnsQuery) : Option DnsResponse :=
  if nbytes < query.size ∨ nbytes ≥ ioBuffer.length then none
  else if bigEndian (ioBuffer.slice 0 2) ≠ query.id then none
  else if bigEndian (ioBuffer.slice 4 2) ≠ 1 then none
  else if query.question ≠ ioBuffer.slice headerSize query.question.length then none
  else some ⟨ioBuffer, ⟨ioBuffer.take nbytes, headerSize + query.question.length⟩⟩

inductive ParseError
  | malformedResponse
  | malformedCname
  | nameMismatch
  | sizeMismatch
  | cnameAfterAddress
  deriving DecidableEq

/-- The bytes of a C string: up to the first zero. -/
def cStr (str : List Byte) : List Byte := str.takeWhile (· ≠ 0)

def toLower (b : Byte) : Byte := if 0x41 ≤ b ∧ b ≤ 0x5a then b + 0x20 else b

/-- `base::strcasecmp` finds no difference. -/
def sameCString (xs ys : List Byte) : Bool := (cStr xs).map toLower = (cStr ys).map toLower

structure AddressList where
  addresses : List (List Byte)
  canonicalName : List Byte
  ttl : ℕ
  deriving DecidableEq

/-- What is carried from record to record. -/
structure AnswerState where
  parser : DnsRecordParser
  expectedName : List Byte
  ttl : ℕ
  addresses : List (List Byte)

/-- One record of the answer. The name that is expected next is stored by `ReadName`. -/
def parseAnswer (expectedType expectedSize : ℕ) (record : DnsResourceRecord) (s : AnswerState) :
    Option (Except ParseError AnswerState) :=
  if record.type = kTypeCNAME then
    if s.addresses ≠ [] then some (.error .cnameAfterAddress)
    else if ¬ sameCString record.name s.expectedName then some (.error .nameMismatch)
    else
      (readName s.parser.packet record.rdataPos (some s.expectedName)).map fun result =>
        if record.rdata.length ≠ result.1 then .error .malformedCname
        else .ok { s with expectedName := result.2.getD [], ttl := min s.ttl record.ttl }
  else if record.type = expectedType then
    if record.rdata.length ≠ expectedSize then some (.error .sizeMismatch)
    else if ¬ sameCString record.name s.expectedName then some (.error .nameMismatch)
    else
      some (.ok { s with ttl := min s.ttl record.ttl, addresses := s.addresses ++ [record.rdata] })
  else some (.ok s)

def parseAnswers (expectedType expectedSize : ℕ) :
    ℕ → AnswerState → Option (Except ParseError AnswerState)
  | 0, s => some (.ok s)
  | ancount + 1, s =>
    match s.parser.readRecord with
    | none => none
    | some none => some (.error .malformedResponse)
    | some (some (record, parser)) =>
      match parseAnswer expectedType expectedSize record { s with parser := parser } with
      | none => none
      | some (.error e) => some (.error e)
      | some (.ok s) => parseAnswers expectedType expectedSize ancount s

namespace DnsResponse

def answerCount (response : DnsResponse) : ℕ := bigEndian (response.ioBuffer.slice 6 2)

/-- The question stands before the answer, with its type and class at its end. -/
def qname (response : DnsResponse) : List Byte :=
  response.ioBuffer.slice headerSize (response.parser.cur - 2 * 2 - headerSize)

def qtype (response : DnsResponse) : ℕ :=
  bigEndian (response.ioBuffer.slice (response.parser.cur - 2 * 2) 2)

def getDottedName (response : DnsResponse) : List Byte := dnsDomainToString response.qname

def expectedSize (expectedType : ℕ) : ℕ :=
  if expectedType = kTypeAAAA then kIPv6AddressSize else kIPv4AddressSize

def parseToAddressList (response : DnsResponse) : Option (Except ParseError AddressList) :=
  (parseAnswers response.qtype (expectedSize response.qtype) response.answerCount
    ⟨response.parser, response.getDottedName, kuint32max, []⟩).map fun result =>
      result.map fun s => ⟨s.addresses, s.expectedName, s.ttl⟩

end DnsResponse

/-! ### The name in the question -/

lemma encodeName_cons (label : List Byte) (labels : List (List Byte)) :
    encodeName (label :: labels) =
      (BitVec.ofNat 8 label.length :: label) ++ encodeName labels := by
  rw [encodeName, encodeName, List.flatMap_cons, List.append_assoc]

lemma length_encodeName (labels : List (List Byte)) :
    labels.length < (encodeName labels).length := by
  induction labels with
  | nil => decide
  | cons label labels ih =>
    rw [encodeName_cons, List.length_append, List.length_cons, List.length_cons]
    omega

/-- The loop stands at the front of the labels that are left. -/
lemma dnsDomainLoop_encodeName {labels : List (List Byte)} (hne : ∀ label ∈ labels, label ≠ [])
    (hlength : ∀ label ∈ labels, label.length ≤ 63) {fuel : ℕ} (hfuel : labels.length < fuel)
    {front ret : List Byte} (hfirst : ret = [] ↔ front = []) :
    dnsDomainLoop (front ++ encodeName labels) fuel front.length ret =
      labels.foldl appendLabel ret := by
  induction labels generalizing fuel front ret with
  | nil =>
    obtain ⟨fuel, rfl⟩ : ∃ n, fuel = n + 1 := ⟨fuel - 1, by rw [List.length_nil] at hfuel; omega⟩
    rw [dnsDomainLoop]
    simp [encodeName]
  | cons label labels ih =>
    rw [List.length_cons] at hfuel
    obtain ⟨fuel, rfl⟩ : ∃ n, fuel = n + 1 := ⟨fuel - 1, by omega⟩
    rw [List.forall_mem_cons] at hne hlength
    have hpos := List.length_pos_iff.mpr hne.1
    have hle := hlength.1
    have hbyte : (BitVec.ofNat 8 label.length).toNat = label.length := by
      rw [BitVec.toNat_ofNat]
      omega
    have hread : (front ++ encodeName (label :: labels))[front.length]? =
        some (BitVec.ofNat 8 label.length) := by
      rw [encodeName_cons]
      simp
    have hzero : BitVec.ofNat 8 label.length ≠ 0 := by
      intro h
      rw [h] at hbyte
      exact absurd hbyte.symm (by simpa using hpos.ne')
    have hdomain : front ++ encodeName (label :: labels) =
        front ++ (BitVec.ofNat 8 label.length :: label) ++ encodeName labels := by
      rw [encodeName_cons, List.append_assoc]
    have hnext : (front ++ (BitVec.ofNat 8 label.length :: label)).length =
        front.length + (label.length + 1) := by
      rw [List.length_append, List.length_cons]
    have hlabel : ((front ++ encodeName (label :: labels)).drop (front.length + 1)).take
        label.length = label := by
      rw [← List.drop_drop, List.drop_left, encodeName_cons, List.cons_append,
        List.drop_one, List.tail_cons, List.take_left]
    rw [dnsDomainLoop, hread]
    dsimp only
    rw [if_neg hzero, hbyte, if_neg (by omega), if_neg, hlabel, ← hnext, hdomain,
      ih hne.2 hlength.2 (by omega), List.foldl_cons]
    · congr 1
      unfold appendLabel
      by_cases hret : ret = []
      · simp [hret, hfirst.mp hret]
      · have hfront : front.length ≠ 0 := fun h =>
          hret (hfirst.mpr (List.length_eq_zero_iff.mp h))
        simp [hret, hfront]
    · simp [hne.1]
    · rw [hdomain, List.length_append, hnext]
      omega

lemma dnsDomainToString_encodeName {labels : List (List Byte)}
    (hne : ∀ label ∈ labels, label ≠ []) (hlength : ∀ label ∈ labels, label.length ≤ 63) :
    dnsDomainToString (encodeName labels) = dotted labels := by
  have hfuel := length_encodeName labels
  have hloop := @dnsDomainLoop_encodeName labels hne hlength _ (Nat.lt_succ_of_lt hfuel) [] []
    (by simp)
  rw [foldl_appendLabel hne] at hloop
  exact hloop

section Question
variable {ioBuffer : Packet} {nbytes : ℕ} {query : DnsQuery} {response : DnsResponse}

/-- A part of a part of a packet. -/
lemma take_drop_slice (packet : Packet) (pos : ℕ) {skip size whole : ℕ}
    (h : skip + size ≤ whole) :
    ((packet.slice pos whole).drop skip).take size = packet.slice (pos + skip) size := by
  rw [Packet.slice, Packet.slice, List.drop_take, List.take_take, List.drop_drop]
  congr 1
  omega

lemma bigEndian_uint16Bytes {n : ℕ} (h : n < 2 ^ 16) : bigEndian (uint16Bytes n) = n := by
  simp only [bigEndian, uint16Bytes, List.foldl_cons, List.foldl_nil, BitVec.toNat_ofNat]
  omega

/-- What a parsed response says about its question. -/
lemma initParse_eq_some (h : initParse ioBuffer nbytes query = some response) :
    response.ioBuffer = ioBuffer ∧ response.parser.packet = ioBuffer.take nbytes ∧
      response.parser.cur = headerSize + query.question.length ∧
      query.question = ioBuffer.slice headerSize query.question.length := by
  unfold initParse at h
  split_ifs at h with hsize hid hcount hquestion
  obtain rfl := Option.some.inj h
  exact ⟨rfl, rfl, rfl, not_not.mp hquestion⟩

lemma length_question (query : DnsQuery) : query.question.length = query.qname.length + 4 := by
  rw [DnsQuery.question, List.length_append]
  rfl

lemma getDottedName_eq (h : initParse ioBuffer nbytes query = some response) :
    response.getDottedName = dotted query.labels := by
  obtain ⟨hbuffer, -, hcur, hquestion⟩ := initParse_eq_some h
  have hqname : response.qname = query.qname := by
    have hlength : response.parser.cur - 2 * 2 - headerSize = query.qname.length := by
      rw [hcur, length_question]
      omega
    have hslice := @take_drop_slice ioBuffer headerSize 0 query.qname.length
      query.question.length (by rw [length_question]; omega)
    rw [← hquestion, List.drop_zero, DnsQuery.question, List.take_left] at hslice
    rw [DnsResponse.qname, hbuffer, hlength]
    exact hslice.symm
  rw [DnsResponse.getDottedName, hqname]
  exact dnsDomainToString_encodeName query.label_ne_nil query.label_length

lemma qtype_eq (h : initParse ioBuffer nbytes query = some response) :
    response.qtype = query.qtype := by
  obtain ⟨hbuffer, -, hcur, hquestion⟩ := initParse_eq_some h
  have hpos : response.parser.cur - 2 * 2 = headerSize + query.qname.length := by
    rw [hcur, length_question]
    omega
  have hslice := @take_drop_slice ioBuffer headerSize query.qname.length 2
    query.question.length (by rw [length_question]; omega)
  rw [← hquestion, DnsQuery.question, List.drop_left] at hslice
  rw [DnsResponse.qtype, hbuffer, hpos, ← hslice]
  exact bigEndian_uint16Bytes query.qtype_lt

end Question

/-! ### Records and chains -/

/-- A record stands at the position: a name, the fields and the data. -/
def IsRecord (packet : Packet) (pos : ℕ) (record : DnsResourceRecord) (next : ℕ) : Prop :=
  ∃ steps, Follows packet pos steps ∧ visited steps ≤ packet.length ∧
    record.name = dotted (labels steps) ∧ Fields packet (pos + taken steps) record next

/-- Records one after the other. -/
inductive Records (packet : Packet) : ℕ → List DnsResourceRecord → Prop
  | nil {pos : ℕ} : Records packet pos []
  | cons {pos next : ℕ} {record : DnsResourceRecord} {rest : List DnsResourceRecord}
      (hrecord : IsRecord packet pos record next) (hrest : Records packet next rest) :
      Records packet pos (record :: rest)

/-- There is exactly one name in the bytes. -/
def IsName (packet : Packet) (pos size : ℕ) (name : List Byte) : Prop :=
  ∃ steps, Follows packet pos steps ∧ visited steps ≤ packet.length ∧ size = taken steps ∧
    name = dotted (labels steps)

/-- Whole names that differ only in the case of their letters. -/
def SameName (xs ys : List Byte) : Prop := xs.map toLower = ys.map toLower

/-- Every record is owned by the name that the one before it leads to. -/
inductive Chain (packet : Packet) : List Byte → List DnsResourceRecord → List Byte → Prop
  | nil {name : List Byte} : Chain packet name [] name
  | cons {name target last : List Byte} {record : DnsResourceRecord}
      {rest : List DnsResourceRecord} (howner : SameName record.name name)
      (htarget : IsName packet record.rdataPos record.rdata.length target)
      (hrest : Chain packet target rest last) : Chain packet name (record :: rest) last

/-- What the code checks of a chain. -/
inductive Linked (packet : Packet) : List Byte → List DnsResourceRecord → List Byte → Prop
  | nil {name : List Byte} : Linked packet name [] name
  | cons {name target last : List Byte} {record : DnsResourceRecord}
      {rest : List DnsResourceRecord} (howner : sameCString record.name name)
      (htarget : readName packet record.rdataPos (some name) =
        some (record.rdata.length, some target))
      (hrest : Linked packet target rest last) : Linked packet name (record :: rest) last

/-- Every alias has data, and no name that is compared has a zero in it. -/
structure Plain (packet : Packet) (expectedType : ℕ) (records : List DnsResourceRecord) :
    Prop where
  rdata : ∀ r ∈ records, r.type = kTypeCNAME → r.rdata ≠ []
  owner : ∀ r ∈ records, r.type = kTypeCNAME ∨ r.type = expectedType → 0 ∉ r.name
  target : ∀ r ∈ records, r.type = kTypeCNAME → ∀ name,
    IsName packet r.rdataPos r.rdata.length name → 0 ∉ name

def aliases (records : List DnsResourceRecord) : List DnsResourceRecord :=
  records.filter (·.type = kTypeCNAME)

def addressRecords (expectedType : ℕ) (records : List DnsResourceRecord) :
    List DnsResourceRecord :=
  records.filter (·.type = expectedType)

/-- The records whose time to live counts. -/
def timed (expectedType : ℕ) (records : List DnsResourceRecord) : List DnsResourceRecord :=
  records.filter fun r => r.type = kTypeCNAME ∨ r.type = expectedType

section Chains
variable {packet : Packet} {name last : List Byte} {records : List DnsResourceRecord}

lemma cStr_of_notMem {str : List Byte} (h : 0 ∉ str) : cStr str = str := by
  induction str with
  | nil => rfl
  | cons b str ih =>
    rw [List.mem_cons, not_or] at h
    rw [cStr] at ih ⊢
    rw [List.takeWhile_cons_of_pos (by simpa using Ne.symm h.1), ih h.2]

lemma sameName_of_sameCString {xs ys : List Byte} (hxs : 0 ∉ xs) (hys : 0 ∉ ys)
    (h : sameCString xs ys) : SameName xs ys := by
  rw [sameCString, decide_eq_true_eq, cStr_of_notMem hxs, cStr_of_notMem hys] at h
  exact h

/-- A length that is not zero says that there is a name. -/
lemma isName_of_readName {pos size : ℕ} {target : List Byte} (hsize : 0 < size)
    (h : readName packet pos (some name) = some (size, some target)) :
    IsName packet pos size target := by
  obtain ⟨n, found, hread, hexists, hall⟩ := readName_stored packet pos name
  rw [h] at hread
  cases hread
  obtain ⟨steps, hsteps, hvisited⟩ := hexists.mp hsize
  obtain ⟨hname, hsize⟩ := hall steps hsteps hvisited
  exact ⟨steps, hsteps, hvisited, hsize, hname⟩

lemma Linked.eq_of_nil (h : Linked packet name [] last) : last = name := by
  cases h
  rfl

/-- Without zeroes and empty data the checks of the code are those of a chain. -/
lemma Linked.chain (h : Linked packet name records last) (hzero : 0 ∉ name)
    (hdata : ∀ r ∈ records, r.rdata ≠ []) (howner : ∀ r ∈ records, 0 ∉ r.name)
    (htarget : ∀ r ∈ records, ∀ target, IsName packet r.rdataPos r.rdata.length target →
      0 ∉ target) : Chain packet name records last ∧ 0 ∉ last := by
  induction h with
  | nil => exact ⟨.nil, hzero⟩
  | cons hsame hread hrest ih =>
    rw [List.forall_mem_cons] at hdata howner htarget
    have hname := isName_of_readName (List.length_pos_iff.mpr hdata.1) hread
    obtain ⟨hchain, hlast⟩ := ih (htarget.1 _ hname) hdata.2 howner.2 htarget.2
    exact ⟨.cons (sameName_of_sameCString howner.1 hzero hsame) hname hchain, hlast⟩

end Chains

section Unique
variable {packet : Packet} {pos : ℕ}

/-- The steps from a position are determined. -/
lemma Follows.unique {steps steps' : List Step} (h : Follows packet pos steps)
    (h' : Follows packet pos steps') : steps = steps' := by
  induction h generalizing steps' with
  | root hroot =>
    rcases h'.of_direct hroot (by decide) with ⟨-, rfl⟩ | ⟨hne, -⟩
    · rfl
    · exact absurd rfl hne
  | label hb hdirect hne hrest ih =>
    rcases h'.of_direct hb hdirect with ⟨hzero, -⟩ | ⟨-, rest, rfl, hrest'⟩
    · exact absurd hzero hne
    · rw [ih hrest']
  | jump hb hpointer hb' hrest ih =>
    obtain ⟨b'', rest, hb'', rfl, hrest'⟩ := h'.of_pointer hb hpointer
    obtain rfl := Option.some.inj (hb'.symm.trans hb'')
    rw [ih hrest']

lemma IsRecord.unique {record record' : DnsResourceRecord} {next next' : ℕ}
    (h : IsRecord packet pos record next) (h' : IsRecord packet pos record' next') :
    record = record' ∧ next = next' := by
  obtain ⟨steps, hsteps, -, hname, hfields⟩ := h
  obtain ⟨steps', hsteps', -, hname', hfields'⟩ := h'
  obtain rfl := hsteps.unique hsteps'
  have hpos := hfields.rdataPos.trans hfields'.rdataPos.symm
  have hdata : record.rdata = record'.rdata := by
    rw [hfields.rdata, hfields'.rdata, hpos]
  have hnext : next = next' := by rw [hfields.next_eq, hfields'.next_eq, hpos, hdata]
  refine ⟨?_, hnext⟩
  cases record
  cases record'
  simp only [DnsResourceRecord.mk.injEq]
  exact ⟨hname.trans hname'.symm, hfields.type.trans hfields'.type.symm,
    hfields.klass.trans hfields'.klass.symm, hfields.ttl.trans hfields'.ttl.symm, hpos, hdata⟩

lemma Records.unique {records records' : List DnsResourceRecord} (h : Records packet pos records)
    (h' : Records packet pos records') (hlength : records'.length = records.length) :
    records' = records := by
  induction h generalizing records' with
  | nil => exact List.length_eq_zero_iff.mp hlength
  | cons hrecord hrest ih =>
    cases h' with
    | nil => cases hlength
    | cons hrecord' hrest' =>
      obtain ⟨rfl, rfl⟩ := hrecord.unique hrecord'
      rw [ih hrest' (by simpa using hlength)]

lemma IsName.unique {size n : ℕ} {name out found : List Byte} (h : IsName packet pos size name)
    (hread : readName packet pos (some out) = some (n, some found)) : name = found := by
  obtain ⟨steps, hsteps, hvisited, -, rfl⟩ := h
  obtain ⟨n', found', hread', -, hall⟩ := readName_stored packet pos out
  rw [hread] at hread'
  cases hread'
  exact (hall steps hsteps hvisited).1.symm

lemma isRecord_of_readRecord {parser next : DnsRecordParser} {record : DnsResourceRecord}
    (h : parser.readRecord = some (some (record, next))) :
    IsRecord parser.packet parser.cur record next.cur :=
  (readRecord_eq_some h).2

end Unique

/-! ### The loop over the records -/

/-- What the loop has seen between two states. -/
structure Answers (expectedType : ℕ) (s s' : AnswerState) (records : List DnsResourceRecord) :
    Prop where
  addresses : s'.addresses = s.addresses ++ (addressRecords expectedType records).map (·.rdata)
  ttl : s'.ttl = ((timed expectedType records).map (·.ttl)).foldl min s.ttl
  ordered : records.Pairwise fun r r' => r.type = expectedType → r'.type ≠ kTypeCNAME
  late : s.addresses ≠ [] → ∀ r ∈ records, r.type ≠ kTypeCNAME
  linked : Linked s.parser.packet s.expectedName (aliases records) s'.expectedName
  owners : ∀ r ∈ records, r.type = expectedType → sameCString r.name s'.expectedName

section Loop
variable {expectedType expectedSize : ℕ} {record : DnsResourceRecord} {s s' : AnswerState}
  {records : List DnsResourceRecord}

lemma Answers.nil : Answers expectedType s s [] where
  addresses := (List.append_nil _).symm
  ttl := rfl
  ordered := .nil
  late := by simp
  linked := .nil
  owners := by simp

/-- An alias, before any address. -/
lemma Answers.alias {target : List Byte} (hne : expectedType ≠ kTypeCNAME)
    (htype : record.type = kTypeCNAME) (hnone : s.addresses = [])
    (hsame : sameCString record.name s.expectedName)
    (hread : readName s.parser.packet record.rdataPos (some s.expectedName) =
      some (record.rdata.length, some target))
    (h : Answers expectedType
      { s with expectedName := target, ttl := min s.ttl record.ttl } s' records) :
    Answers expectedType s s' (record :: records) := by
  have hother : record.type ≠ expectedType := by rw [htype]; exact hne.symm
  constructor
  · rw [addressRecords, List.filter_cons_of_neg (by simpa using hother)]
    exact h.addresses
  · rw [timed, List.filter_cons_of_pos (by simp [htype]), List.map_cons, List.foldl_cons]
    exact h.ttl
  · exact h.ordered.cons fun r _ heq => absurd heq hother
  · exact fun hsome => absurd hnone hsome
  · rw [aliases, List.filter_cons_of_pos (by simpa using htype)]
    exact .cons hsame hread h.linked
  · rw [List.forall_mem_cons]
    exact ⟨fun heq => absurd heq hother, h.owners⟩

/-- An address, after which no alias comes. -/
lemma Answers.address (hne : expectedType ≠ kTypeCNAME) (htype : record.type = expectedType)
    (hsame : sameCString record.name s.expectedName)
    (h : Answers expectedType { s with
      ttl := min s.ttl record.ttl, addresses := s.addresses ++ [record.rdata] } s' records) :
    Answers expectedType s s' (record :: records) := by
  have hother : record.type ≠ kTypeCNAME := by rw [htype]; exact hne
  have hlate := h.late (by simp)
  have hnone : aliases records = [] := by
    rw [aliases, List.filter_eq_nil_iff]
    intro r hr
    simpa using hlate r hr
  -- nothing changes the name any more
  have hname : s'.expectedName = s.expectedName := by
    have hlinked := h.linked
    rw [hnone] at hlinked
    exact hlinked.eq_of_nil
  constructor
  · rw [addressRecords, List.filter_cons_of_pos (by simpa using htype), List.map_cons, h.addresses,
      List.append_assoc]
    rfl
  · rw [timed, List.filter_cons_of_pos (by simp [htype]), List.map_cons, List.foldl_cons]
    exact h.ttl
  · exact h.ordered.cons fun r hr _ => hlate r hr
  · rw [List.forall_mem_cons]
    exact fun _ => ⟨hother, hlate⟩
  · rw [aliases, List.filter_cons_of_neg (by simpa using hother)]
    exact h.linked
  · rw [List.forall_mem_cons, hname]
    exact ⟨fun _ => hsame, hname ▸ h.owners⟩

lemma Answers.other (hother : record.type ≠ kTypeCNAME) (hother' : record.type ≠ expectedType)
    (h : Answers expectedType s s' records) : Answers expectedType s s' (record :: records) := by
  constructor
  · rw [addressRecords, List.filter_cons_of_neg (by simpa using hother')]
    exact h.addresses
  · rw [timed, List.filter_cons_of_neg (by simp [hother, hother'])]
    exact h.ttl
  · exact h.ordered.cons fun r _ heq => absurd heq hother'
  · rw [List.forall_mem_cons]
    exact fun hsome => ⟨hother, h.late hsome⟩
  · rw [aliases, List.filter_cons_of_neg (by simpa using hother)]
    exact h.linked
  · rw [List.forall_mem_cons]
    exact ⟨fun heq => absurd heq hother', h.owners⟩

/-- The three ways in which a record is taken. -/
lemma parseAnswer_eq_ok {t : AnswerState}
    (h : parseAnswer expectedType expectedSize record s = some (.ok t)) :
    (record.type = kTypeCNAME ∧ s.addresses = [] ∧ sameCString record.name s.expectedName ∧
        ∃ target, readName s.parser.packet record.rdataPos (some s.expectedName) =
            some (record.rdata.length, some target) ∧
          t = { s with expectedName := target, ttl := min s.ttl record.ttl }) ∨
      (record.type ≠ kTypeCNAME ∧ record.type = expectedType ∧
        sameCString record.name s.expectedName ∧
        t = { s with ttl := min s.ttl record.ttl,
                     addresses := s.addresses ++ [record.rdata] }) ∨
      (record.type ≠ kTypeCNAME ∧ record.type ≠ expectedType ∧ t = s) := by
  unfold parseAnswer at h
  by_cases halias : record.type = kTypeCNAME
  · rw [if_pos halias] at h
    by_cases hsome : s.addresses ≠ []
    · rw [if_pos hsome] at h
      cases h
    rw [if_neg hsome] at h
    by_cases hsame : sameCString record.name s.expectedName = true
    · rw [if_neg (not_not.mpr hsame)] at h
      obtain ⟨n, target, hread, -⟩ :=
        readName_stored s.parser.packet record.rdataPos s.expectedName
      rw [hread, Option.map_some] at h
      have h := Option.some.inj h
      dsimp only at h
      split_ifs at h with hlength
      refine .inl ⟨halias, not_not.mp hsome, hsame, target, ?_, (Except.ok.inj h).symm⟩
      rw [hread, not_not.mp hlength]
    · rw [if_pos hsame] at h
      cases h
  rw [if_neg halias] at h
  by_cases haddress : record.type = expectedType
  · rw [if_pos haddress] at h
    by_cases hsize : record.rdata.length ≠ expectedSize
    · rw [if_pos hsize] at h
      cases h
    rw [if_neg hsize] at h
    by_cases hsame : sameCString record.name s.expectedName = true
    · rw [if_neg (not_not.mpr hsame)] at h
      exact .inr (.inl ⟨halias, haddress, hsame, (Except.ok.inj (Option.some.inj h)).symm⟩)
    · rw [if_pos hsame] at h
      cases h
  · rw [if_neg haddress] at h
    exact .inr (.inr ⟨halias, haddress, (Except.ok.inj (Option.some.inj h)).symm⟩)

/-- One record, and those that come after it. -/
lemma Answers.cons (hne : expectedType ≠ kTypeCNAME) {t : AnswerState}
    (hstep : parseAnswer expectedType expectedSize record s = some (.ok t))
    (h : Answers expectedType t s' records) :
    t.parser = s.parser ∧ Answers expectedType s s' (record :: records) := by
  rcases parseAnswer_eq_ok hstep with ⟨halias, hnone, hsame, target, hread, rfl⟩ |
    ⟨-, haddress, hsame, rfl⟩ | ⟨halias, haddress, rfl⟩
  · exact ⟨rfl, h.alias hne halias hnone hsame hread⟩
  · exact ⟨rfl, h.address hne haddress hsame⟩
  · exact ⟨rfl, h.other halias haddress⟩

/-- The packet is the same in every state. -/
lemma Answers.congr_parser {parser : DnsRecordParser} (hpacket : parser.packet = s.parser.packet)
    (h : Answers expectedType { s with parser := parser } s' records) :
    Answers expectedType s s' records :=
  ⟨h.addresses, h.ttl, h.ordered, h.late, hpacket ▸ h.linked, h.owners⟩

/-- Every answer that is counted is a record, and the loop takes them one by one. -/
theorem parseAnswers_ok (hne : expectedType ≠ kTypeCNAME) {ancount : ℕ}
    (h : parseAnswers expectedType expectedSize ancount s = some (.ok s')) :
    ∃ records, records.length = ancount ∧ Records s.parser.packet s.parser.cur records ∧
      Answers expectedType s s' records := by
  induction ancount generalizing s with
  | zero =>
    cases h
    exact ⟨[], rfl, .nil, .nil⟩
  | succ ancount ih =>
    rw [parseAnswers] at h
    split at h
    · cases h
    · cases h
    rename_i record parser hrecord
    obtain ⟨hpacket, hread⟩ := readRecord_eq_some hrecord
    split at h
    · cases h
    · cases h
    rename_i t hstep
    obtain ⟨records, hlength, hrecords, hanswers⟩ := ih h
    obtain ⟨hparser, hanswers⟩ := hanswers.cons hne hstep
    rw [hparser, hpacket] at hrecords
    exact ⟨record :: records, by rw [List.length_cons, hlength], .cons hread hrecords,
      hanswers.congr_parser hpacket⟩

end Loop

/-- A list that is accepted comes from records that are well formed: the aliases first, each owned
by the name before it, then the addresses of the last name. The chain is told of responses whose
aliases have data and whose names have no zeroes. -/
theorem parseToAddressList_spec {ioBuffer : Packet} {nbytes : ℕ} {query : DnsQuery}
    {response : DnsResponse} {result : AddressList}
    (hparse : initParse ioBuffer nbytes query = some response)
    (hqtype : query.qtype = kTypeA ∨ query.qtype = kTypeAAAA)
    (h : response.parseToAddressList = some (.ok result)) :
    ∃ records, records.length = response.answerCount ∧
      Records response.parser.packet response.parser.cur records ∧
      (records.Pairwise fun r r' => r.type = query.qtype → r'.type ≠ kTypeCNAME) ∧
      result.addresses = (addressRecords query.qtype records).map (·.rdata) ∧
      result.ttl = ((timed query.qtype records).map (·.ttl)).foldl min kuint32max ∧
      (0 ∉ dotted query.labels → Plain response.parser.packet query.qtype records →
        Chain response.parser.packet (dotted query.labels) (aliases records)
            result.canonicalName ∧
          ∀ r ∈ addressRecords query.qtype records, SameName r.name result.canonicalName) := by
  have hne : query.qtype ≠ kTypeCNAME := by
    rcases hqtype with h | h <;> rw [h] <;> decide
  rw [DnsResponse.parseToAddressList, qtype_eq hparse, getDottedName_eq hparse] at h
  obtain ⟨answers, hanswers, hresult⟩ := Option.map_eq_some_iff.mp h
  cases answers with
  | error e => cases hresult
  | ok s =>
    obtain rfl := Except.ok.inj hresult
    obtain ⟨records, hlength, hrecords, hloop⟩ := parseAnswers_ok hne hanswers
    refine ⟨records, hlength, hrecords, hloop.ordered, hloop.addresses, hloop.ttl,
      fun hzero hplain => ?_⟩
    have hmem : ∀ r ∈ aliases records, r ∈ records ∧ r.type = kTypeCNAME := by
      intro r hr
      simpa [aliases] using hr
    obtain ⟨hchain, hlast⟩ := hloop.linked.chain hzero
      (fun r hr => hplain.rdata r (hmem r hr).1 (hmem r hr).2)
      (fun r hr => hplain.owner r (hmem r hr).1 (.inl (hmem r hr).2))
      (fun r hr => hplain.target r (hmem r hr).1 (hmem r hr).2)
    refine ⟨hchain, fun r hr => ?_⟩
    obtain ⟨hr, htype⟩ : r ∈ records ∧ r.type = query.qtype := by
      simpa [addressRecords] using hr
    exact sameName_of_sameCString (hplain.owner r hr (.inr htype)) hlast
      (hloop.owners r hr htype)

/-! ### Responses to a question for `a` -/

def queryA : DnsQuery where
  id := 0
  labels := [[0x61]]
  qtype := kTypeA
  qtype_lt := by decide
  label_ne_nil := by decide
  label_length := by decide

/-- The header, the question, the answer, and a byte of the buffer that is not read. -/
def bufferA (ancount : Byte) (answer : List Byte) (h : answer.length < 2 ^ 30) : Packet where
  data := [0, 0, 0x81, 0x80, 0, 1, 0, ancount, 0, 0, 0, 0, 1, 0x61, 0, 0, 1, 0, 1] ++ answer ++ [0]
  length_lt := by
    simp only [List.length_append, List.length_cons, List.length_nil]
    omega

def responseA (ancount : Byte) (answer : List Byte) (h : answer.length < 2 ^ 30) : DnsResponse where
  ioBuffer := bufferA ancount answer h
  parser := ⟨(bufferA ancount answer h).take (19 + answer.length), 19⟩

/-- `a` is an alias for 3 seconds, and the address of `b` is known for 5. -/
def aliasResponse : DnsResponse :=
  responseA 2 [1, 0x61, 0, 0, 5, 0, 1, 0, 0, 0, 3, 0, 3, 1, 0x62, 0,
    1, 0x62, 0, 0, 1, 0, 1, 0, 0, 0, 5, 0, 4, 10, 10, 10, 10] (by decide)

def aliasRecord : DnsResourceRecord := ⟨[0x61], kTypeCNAME, kClassIN, 3, 32, [1, 0x62, 0]⟩

def addressRecord : DnsResourceRecord := ⟨[0x62], kTypeA, kClassIN, 5, 48, [10, 10, 10, 10]⟩

lemma aliasResponse_records :
    IsRecord aliasResponse.parser.packet 19 aliasRecord 35 ∧
      IsRecord aliasResponse.parser.packet 35 addressRecord 52 :=
  ⟨@isRecord_of_readRecord aliasResponse.parser ⟨aliasResponse.parser.packet, 35⟩ _ rfl,
    @isRecord_of_readRecord ⟨aliasResponse.parser.packet, 35⟩ ⟨aliasResponse.parser.packet, 52⟩ _
      rfl⟩

lemma aliasResponse_plain :
    Plain aliasResponse.parser.packet kTypeA [aliasRecord, addressRecord] := by
  refine ⟨by decide, by decide, fun r hr htype name hname => ?_⟩
  obtain rfl : r = aliasRecord := by
    rcases List.mem_pair.mp hr with rfl | rfl
    · rfl
    · exact absurd htype (by decide)
  rw [hname.unique (show readName aliasResponse.parser.packet 32 (some []) =
    some (3, some [0x62]) by rfl)]
  decide

theorem parseToAddressList_spec_alias :
    initParse aliasResponse.ioBuffer 52 queryA = some aliasResponse ∧
      aliasResponse.parseToAddressList = some (.ok ⟨[[10, 10, 10, 10]], [0x62], 3⟩) ∧
      Chain aliasResponse.parser.packet [0x61] [aliasRecord] [0x62] := by
  have hparse : initParse aliasResponse.ioBuffer 52 queryA = some aliasResponse := rfl
  have hresult : aliasResponse.parseToAddressList =
      some (.ok ⟨[[10, 10, 10, 10]], [0x62], 3⟩) := rfl
  obtain ⟨records, hlength, hrecords, -, -, -, hchain⟩ :=
    parseToAddressList_spec hparse (.inl rfl) hresult
  obtain rfl : records = [aliasRecord, addressRecord] :=
    Records.unique (.cons aliasResponse_records.1 (.cons aliasResponse_records.2 .nil)) hrecords
      hlength
  exact ⟨hparse, hresult, (hchain (by decide) aliasResponse_plain).1⟩

/-- `a` is an alias for nothing. -/
def emptyResponse : DnsResponse :=
  responseA 1 [1, 0x61, 0, 0, 5, 0, 1, 0, 0, 0, 3, 0, 0] (by decide)

def emptyRecord : DnsResourceRecord := ⟨[0x61], kTypeCNAME, kClassIN, 3, 32, []⟩

/-- The owner goes on after a zero. -/
def zeroResponse : DnsResponse :=
  responseA 1 [3, 0x61, 0, 0x62, 0, 0, 1, 0, 1, 0, 0, 0, 5, 0, 4, 10, 10, 10, 10] (by decide)

def zeroRecord : DnsResourceRecord :=
  ⟨[0x61, 0, 0x62], kTypeA, kClassIN, 5, 34, [10, 10, 10, 10]⟩

/-- The time to live of an alias counts too. An alias may have no name at all, and a name is
compared only up to a zero. -/
theorem accepted_without_chain :
    (initParse aliasResponse.ioBuffer 52 queryA = some aliasResponse ∧
        aliasResponse.parseToAddressList = some (.ok ⟨[[10, 10, 10, 10]], [0x62], 3⟩) ∧
        Records aliasResponse.parser.packet 19 [aliasRecord, addressRecord] ∧
        (addressRecords kTypeA [aliasRecord, addressRecord]).map (·.ttl) = [5]) ∧
      (initParse emptyResponse.ioBuffer 32 queryA = some emptyResponse ∧
        emptyResponse.parseToAddressList = some (.ok ⟨[], [0x61], 3⟩) ∧
        IsRecord emptyResponse.parser.packet 19 emptyRecord 32 ∧
        ∀ name, ¬ IsName emptyResponse.parser.packet emptyRecord.rdataPos
          emptyRecord.rdata.length name) ∧
      initParse zeroResponse.ioBuffer 38 queryA = some zeroResponse ∧
        zeroResponse.parseToAddressList = some (.ok ⟨[[10, 10, 10, 10]], [0x61], 5⟩) ∧
        IsRecord zeroResponse.parser.packet 19 zeroRecord 38 ∧
        ¬ SameName zeroRecord.name [0x61] := by
  refine ⟨⟨rfl, rfl, .cons aliasResponse_records.1 (.cons aliasResponse_records.2 .nil), rfl⟩,
    ⟨rfl, rfl, ?_, ?_⟩, rfl, rfl, ?_, ?_⟩
  · exact @isRecord_of_readRecord emptyResponse.parser ⟨emptyResponse.parser.packet, 32⟩ _ rfl
  · rintro name ⟨steps, -, -, htaken, -⟩
    exact absurd htaken (taken_pos steps).ne
  · exact @isRecord_of_readRecord zeroResponse.parser ⟨zeroResponse.parser.packet, 38⟩ _ rfl
  · unfold SameName
    decide

end Chromium.Dns
