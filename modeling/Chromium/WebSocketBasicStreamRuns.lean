import Chromium.WebSocketBasicStream

/-!
# Reads of the basic stream

The frames that the peer sends, cut into reads anywhere, come out of the calls of `ReadFrames`
in their order.
-/
namespace Chromium.WebSocket

/-! ### The chunks of the parser -/

namespace WebSocketFrameParser
variable {s t : WebSocketFrameParser} {address : ℕ → ℕ}

lemma decodeFramePayload_events_ne {header : WebSocketFrameHeader} {firstChunk : Bool} (place : ℕ)
    (hmore : firstChunk = false →
      s.currentReadPos < s.buffer.length ∧ s.frameOffset < header.payloadLength) :
    (s.decodeFramePayload header firstChunk place).1.events ≠ [] := by
  intro hnil
  rw [WebSocketFrameChunk.events, List.append_eq_nil_iff, List.append_eq_nil_iff] at hnil
  obtain ⟨⟨hheader, hdata⟩, -⟩ := hnil
  rw [decodeFramePayload] at hheader hdata
  cases firstChunk with
  | true => cases hheader
  | false =>
    obtain ⟨hread, hlt⟩ := hmore rfl
    have hsize : 0 < min (s.buffer.drop s.currentReadPos).length
        (header.payloadLength - s.frameOffset) := by
      rw [List.length_drop]
      omega
    simp only [hsize.ne', if_false, Option.getD_some, List.map_eq_nil_iff] at hdata
    have hlength := congrArg List.length hdata
    rw [maskWebSocketFramePayload_eq] at hlength
    split_ifs at hlength
    · rw [maskByBytes_length, List.length_take, List.length_nil] at hlength
      omega
    · rw [List.length_take, List.length_nil] at hlength
      omega

/-- No chunk is empty: each has a header, or data, or ends a frame. -/
lemma decodeLoop_events_ne {fuel : ℕ} {frameChunks chunks : List WebSocketFrameChunk} {ok : Bool}
    (h : ∀ header, s.currentFrameHeader = some header → s.frameOffset < header.payloadLength)
    (hbefore : ∀ chunk ∈ frameChunks, chunk.events ≠ [])
    (hloop : decodeLoop address fuel s frameChunks = some (ok, t, chunks)) :
    ∀ chunk ∈ chunks, chunk.events ≠ [] := by
  induction fuel generalizing s frameChunks with
  | zero => cases hloop
  | succ fuel ih =>
    rw [decodeLoop] at hloop
    by_cases hread : s.currentReadPos < s.buffer.length
    · rw [if_pos hread] at hloop
      -- a round with a header, new or old
      have hround : ∀ (u : WebSocketFrameParser) (header : WebSocketFrameHeader)
          (firstChunk : Bool),
          (firstChunk = false →
            u.currentReadPos < u.buffer.length ∧ u.frameOffset < header.payloadLength) →
          (let decoded := u.decodeFramePayload header firstChunk (address frameChunks.length)
            if decoded.2.currentFrameHeader.isSome then
              some (true, decoded.2, frameChunks ++ [decoded.1])
            else decodeLoop address fuel decoded.2 (frameChunks ++ [decoded.1])) =
              some (ok, t, chunks) →
          ∀ chunk ∈ chunks, chunk.events ≠ [] := by
        intro u header firstChunk hmore hrest
        have hchunk := decodeFramePayload_events_ne (address frameChunks.length) hmore
        have hbefore' : ∀ chunk ∈ frameChunks ++
            [(u.decodeFramePayload header firstChunk (address frameChunks.length)).1],
            chunk.events ≠ [] := by
          rw [List.forall_mem_append, List.forall_mem_singleton]
          exact ⟨hbefore, hchunk⟩
        simp only at hrest
        split_ifs at hrest with hsome
        · cases hrest
          exact hbefore'
        · refine ih ?_ hbefore' hrest
          intro header' hheader'
          rw [hheader'] at hsome
          exact absurd rfl hsome
      simp only at hloop
      cases hheader : s.currentFrameHeader with
      | some header =>
        simp only [hheader, Option.isNone_some, Bool.false_eq_true, if_false, false_and] at hloop
        exact hround s header false (fun _ => ⟨hread, h header hheader⟩) hloop
      | none =>
        simp only [hheader, Option.isNone_none, if_true, true_and] at hloop
        split_ifs at hloop with herror
        · cases hloop
          exact hbefore
        · cases hafter : s.decodeFrameHeader.currentFrameHeader with
          | none =>
            rw [hafter] at hloop
            cases hloop
            exact hbefore
          | some header =>
            rw [hafter] at hloop
            exact hround _ header true (fun hfalse => (by cases hfalse)) hloop
    · rw [if_neg hread] at hloop
      cases hloop
      exact hbefore

lemma Between.decode_events_ne (h : Between s) {data : List Byte} {ok : Bool}
    {chunks : List WebSocketFrameChunk} (hdecode : s.decode data address = some (ok, t, chunks)) :
    ∀ chunk ∈ chunks, chunk.events ≠ [] := by
  rw [decode] at hdecode
  split_ifs at hdecode
  · cases hdecode
    simp
  · cases hdecode
    simp
  · simp only at hdecode
    cases hloop : decodeLoop address ((s.buffer ++ data).length + 1)
        { s with buffer := s.buffer ++ data } [] with
    | none =>
      rw [hloop] at hdecode
      cases hdecode
    | some result =>
      obtain ⟨ok', u, new⟩ := result
      have hne : ∀ chunk ∈ new, chunk.events ≠ [] := by
        refine decodeLoop_events_ne ?_ (by simp) hloop
        exact fun header hheader => (h.payload header hheader).2
      rw [hloop] at hdecode
      cases ok' with
      | true =>
        cases hdecode
        exact hne
      | false =>
        cases hdecode
        exact hne

/-- Calls that all return true, with the chunks of each. -/
def decodeCalls : List DecodeCall → WebSocketFrameParser →
    Option (List (List WebSocketFrameChunk) × WebSocketFrameParser)
  | [], s => some ([], s)
  | call :: calls, s =>
    match s.decode call.data call.address with
    | some (true, s, chunks) =>
      (decodeCalls calls s).map fun (batches, s) => (chunks :: batches, s)
    | _ => none

lemma error_feedAll_append (stage : Stage) (xs ys : List Byte)
    (h : (Stage.feedAll stage (xs ++ ys)).2.error = .normalClosure) :
    (Stage.feedAll stage xs).2.error = .normalClosure := by
  rw [Stage.feedAll_append] at h
  cases hstage : (Stage.feedAll stage xs).2 with
  | failed error =>
    rw [hstage, Stage.feedAll_failed] at h
    exact h
  | inHeader pending => rfl
  | inPayload header key offset => rfl

/-- Without an error every call returns true. -/
lemma Between.decodeCalls (h : Between s) (calls : List DecodeCall)
    (herror : (Stage.feedAll s.stage (calls.flatMap DecodeCall.data)).2.error = .normalClosure) :
    ∃ batches t, WebSocketFrameParser.decodeCalls calls s = some (batches, t) ∧
      batches.flatten.flatMap WebSocketFrameChunk.events =
        (Stage.feedAll s.stage (calls.flatMap DecodeCall.data)).1 ∧
      ∀ chunk ∈ batches.flatten, chunk.events ≠ [] := by
  induction calls generalizing s with
  | nil => exact ⟨[], s, rfl, rfl, by simp⟩
  | cons call calls ih =>
    rw [List.flatMap_cons] at herror
    obtain ⟨ok, t, new, hdecode, hevents, ht, hstage, hok⟩ := decode_spec h call.data call.address
    have htrue : ok = true := by
      rw [hok, ← stage_error, hstage]
      exact error_feedAll_append _ _ _ herror
    subst htrue
    have hlater : (Stage.feedAll t.stage (calls.flatMap DecodeCall.data)).2.error =
        .normalClosure := by
      rw [Stage.feedAll_append] at herror
      rw [hstage]
      exact herror
    obtain ⟨batches, u, hcalls, hevents', hne⟩ := ih ht hlater
    refine ⟨new :: batches, u, ?_, ?_, ?_⟩
    · rw [WebSocketFrameParser.decodeCalls, hdecode]
      simp only [hcalls, Option.map_some]
    · rw [List.flatten_cons, List.flatMap_append, hevents, hevents', List.flatMap_cons,
        Stage.feedAll_append, hstage]
    · rw [List.flatten_cons, List.forall_mem_append]
      exact ⟨h.decode_events_ne hdecode, hne⟩

end WebSocketFrameParser

/-! ### The frames of the chunks -/

/-- The bytes of a chunk come first of those of the payload. -/
lemma bytes_append_inj {data payload : List Byte} {events rest : List FrameEvent}
    (h : data.map FrameEvent.byte ++ events = payload.map .byte ++ .final :: rest) :
    ∃ payload', payload = data ++ payload' ∧ events = payload'.map .byte ++ .final :: rest := by
  induction data generalizing payload with
  | nil => exact ⟨payload, rfl, h⟩
  | cons b data ih =>
    cases payload with
    | nil => cases h
    | cons c payload =>
      simp only [List.map_cons, List.cons_append, List.cons.injEq, FrameEvent.byte.injEq] at h
      obtain ⟨payload', rfl, hevents⟩ := ih h.2
      exact ⟨payload', by rw [h.1]; rfl, hevents⟩

/-- A chunk ends the frame, or there is more to come. -/
lemma chunk_cases {data : Option (List Byte)} {finalChunk : Bool} {payload : List Byte}
    {events rest : List FrameEvent}
    (h : (data.getD []).map .byte ++ (if finalChunk then [FrameEvent.final] else []) ++ events =
      payload.map .byte ++ .final :: rest) :
    finalChunk = true ∧ data.getD [] = payload ∧ events = rest ∨
      finalChunk = false ∧ ∃ payload', payload = data.getD [] ++ payload' ∧
        events = payload'.map .byte ++ .final :: rest := by
  rw [List.append_assoc] at h
  obtain ⟨payload', hpayload, hevents⟩ := bytes_append_inj h
  cases finalChunk with
  | true =>
    cases payload' with
    | nil =>
      rw [List.append_nil] at hpayload
      exact .inl ⟨rfl, hpayload.symm, (List.cons.inj hevents).2⟩
    | cons b payload' => cases hevents
  | false => exact .inr ⟨rfl, payload', hpayload, hevents⟩

/-- Chunks that tell of the rest of a payload and of its end. -/
lemma exists_restChunks {payload : List Byte} {rest : List FrameEvent}
    {chunks : List WebSocketFrameChunk}
    (h : chunks.flatMap WebSocketFrameChunk.events = payload.map .byte ++ .final :: rest) :
    ∃ datas later, datas ≠ [] ∧ chunks = restChunks datas ++ later ∧
      (datas.flatMap fun data => data.getD []) = payload ∧
      later.flatMap WebSocketFrameChunk.events = rest := by
  induction chunks generalizing payload with
  | nil =>
    have hlength := congrArg List.length h
    simp at hlength
  | cons chunk chunks ih =>
    obtain ⟨header, finalChunk, data⟩ := chunk
    rw [List.flatMap_cons, WebSocketFrameChunk.events] at h
    cases header with
    | some header =>
      cases payload with
      | nil => cases h
      | cons b payload => cases h
    | none =>
      cases chunk_cases h with
      | inl hend =>
        obtain ⟨rfl, hdata, hrest⟩ := hend
        exact ⟨[data], chunks, by simp, rfl, by rw [List.flatMap_singleton, hdata], hrest⟩
      | inr hmore =>
        obtain ⟨rfl, payload', rfl, hrest⟩ := hmore
        obtain ⟨datas, later, hne, rfl, rfl, hlater⟩ := ih hrest
        refine ⟨data :: datas, later, List.cons_ne_nil _ _, ?_, List.flatMap_cons, hlater⟩
        rw [restChunks, List.isEmpty_eq_false_iff.mpr hne]
        rfl

/-- Chunks that tell of a frame are made by a cut of it. -/
lemma exists_cut {f : Frame} {rest : List FrameEvent} {chunks : List WebSocketFrameChunk}
    (hne : ∀ chunk ∈ chunks, chunk.events ≠ [])
    (h : chunks.flatMap WebSocketFrameChunk.events = f.events ++ rest) :
    ∃ (cut : FrameCut) (later : List WebSocketFrameChunk), chunks = cut.chunks ++ later ∧
      cut.header = f.header ∧ cut.payload = f.payload ∧
      later.flatMap WebSocketFrameChunk.events = rest := by
  cases chunks with
  | nil => cases h
  | cons chunk chunks =>
    obtain ⟨header, finalChunk, data⟩ := chunk
    rw [List.forall_mem_cons] at hne
    have hframe : f.events ++ rest =
        .header f.header :: (f.payload.map .byte ++ .final :: rest) := by
      simp [Frame.events]
    rw [List.flatMap_cons, WebSocketFrameChunk.events, hframe] at h
    cases header with
    | none =>
      -- a chunk of a frame before
      exfalso
      have hempty := hne.1
      rw [WebSocketFrameChunk.events] at hempty
      cases hdata : data.getD [] with
      | nil =>
        rw [hdata] at h hempty
        cases finalChunk with
        | true => cases h
        | false => exact hempty rfl
      | cons b bytes =>
        rw [hdata] at h
        cases h
    | some header =>
      simp only [Option.map_some, Option.toList_some, List.cons_append, List.nil_append,
        List.cons.injEq, FrameEvent.header.injEq] at h
      obtain ⟨rfl, h⟩ := h
      cases chunk_cases h with
      | inl hend =>
        obtain ⟨rfl, hdata, hrest⟩ := hend
        have hpayload : ([data].flatMap fun data => data.getD []) = f.payload := by
          rw [List.flatMap_singleton, hdata]
        exact ⟨⟨f.header, data, [], by rw [hpayload]; exact f.length_eq⟩, chunks, rfl, rfl,
          hpayload, hrest⟩
      | inr hmore =>
        obtain ⟨rfl, payload', hpayload, hrest⟩ := hmore
        obtain ⟨datas, later, hdatas, rfl, rfl, hlater⟩ := exists_restChunks hrest
        have hwhole : ((data :: datas).flatMap fun data => data.getD []) = f.payload := by
          rw [List.flatMap_cons, hpayload]
        refine ⟨⟨f.header, data, datas, by rw [hwhole]; exact f.length_eq⟩, later, ?_, rfl, hwhole,
          hlater⟩
        rw [FrameCut.chunks, List.isEmpty_eq_false_iff.mpr hdatas]
        rfl

lemma exists_cuts {frames : List Frame} {chunks : List WebSocketFrameChunk}
    (hne : ∀ chunk ∈ chunks, chunk.events ≠ [])
    (h : chunks.flatMap WebSocketFrameChunk.events = frames.flatMap Frame.events) :
    ∃ cuts : List FrameCut, chunks = cuts.flatMap FrameCut.chunks ∧
      cuts.map (fun cut => (cut.header, cut.payload)) =
        frames.map fun f => (f.header, f.payload) := by
  induction frames generalizing chunks with
  | nil =>
    cases chunks with
    | nil => exact ⟨[], rfl, rfl⟩
    | cons chunk chunks =>
      rw [List.flatMap_nil, List.flatMap_eq_nil_iff] at h
      exact absurd (h chunk List.mem_cons_self) (hne chunk List.mem_cons_self)
  | cons f frames ih =>
    rw [List.flatMap_cons] at h
    obtain ⟨cut, later, rfl, hheader, hpayload, hlater⟩ := exists_cut hne h
    obtain ⟨cuts, rfl, hcuts⟩ := ih (fun chunk hchunk => hne chunk (List.mem_append_right _ hchunk))
      hlater
    refine ⟨cut :: cuts, by rw [List.flatMap_cons], ?_⟩
    rw [List.map_cons, List.map_cons, hcuts, hheader, hpayload]

namespace WebSocketBasicStream
variable {s s' : WebSocketBasicStream} {chunk : WebSocketFrameChunk}
  {chunks : List WebSocketFrameChunk} {pieces : List WebSocketFrame}

/-! ### Calls of `ConvertChunksToFrames` -/

lemma Converts.convertChunksToFrames (h : Converts s chunks pieces s') :
    s.convertChunksToFrames chunks =
      some (if pieces = [] then .errIOPending else .ok, pieces, s') := by
  rw [WebSocketBasicStream.convertChunksToFrames, h [], List.nil_append, Option.map_some]
  simp

/-- Calls one after another, none of which fails: all frames that they give. -/
def convertCalls : List (List WebSocketFrameChunk) → WebSocketBasicStream →
    Option (List WebSocketFrame × WebSocketBasicStream)
  | [], s => some ([], s)
  | chunks :: batches, s =>
    match s.convertChunksToFrames chunks with
    | none => none
    | some (result, frames, s) =>
      if result = .ok ∨ result = .errIOPending then
        (convertCalls batches s).map fun (more, s) => (frames ++ more, s)
      else none

/-- The frames do not depend on how the chunks come. -/
lemma convertCalls_of_converts (batches : List (List WebSocketFrameChunk))
    (h : Converts s batches.flatten pieces s') : convertCalls batches s = some (pieces, s') := by
  induction batches generalizing s pieces with
  | nil =>
    have heq := h []
    rw [List.flatten_nil, convertLoop] at heq
    cases heq
    rfl
  | cons chunks batches ih =>
    rw [List.flatten_cons] at h
    obtain ⟨first, second, t, rfl, hfirst, hsecond⟩ := h.split
    rw [convertCalls, hfirst.convertChunksToFrames]
    simp only
    rw [ih hsecond, if_pos]
    · rfl
    · split_ifs
      · exact .inr rfl
      · exact .inl rfl

/-! ### Calls of `ReadFrames` -/

/-- The stream with its parser, when the data behind the HTTP headers is used up. -/
def reading (s : WebSocketBasicStream) (parser : WebSocketFrameParser) : WebSocketBasicStream :=
  { s with httpReadBuffer := none, parser }

/-- The conversion does not look at the parser. -/
lemma convertChunkToFrame_reading (s : WebSocketBasicStream) (parser : WebSocketFrameParser)
    (chunk : WebSocketFrameChunk) :
    (s.reading parser).convertChunkToFrame chunk =
      (s.convertChunkToFrame chunk).map fun (result, frame, t) =>
        (result, frame, t.reading parser) := by
  unfold convertChunkToFrame
  have hheader : (s.reading parser).currentFrameHeader = s.currentFrameHeader := rfl
  have hbody : (s.reading parser).incompleteControlFrameBody = s.incompleteControlFrameBody := rfl
  rw [hheader, hbody]
  cases chunk.header.or s.currentFrameHeader with
  | none => rfl
  | some header =>
    simp only
    split_ifs
    · rfl
    · rw [Option.map_map]
      rfl
    · cases s.incompleteControlFrameBody with
      | none => rfl
      | some body =>
        simp only [Option.map_map]
        rfl
    · rfl

lemma Converts.reading (h : Converts s chunks pieces s') (parser : WebSocketFrameParser) :
    Converts (s.reading parser) chunks pieces (s'.reading parser) := by
  induction chunks generalizing s pieces with
  | nil =>
    have heq := h []
    rw [convertLoop] at heq
    cases heq
    exact .nil _
  | cons chunk chunks ih =>
    obtain ⟨frame, t, hstep, hloop⟩ := convertLoop_cons.mp (h [])
    obtain ⟨later, hpieces, hlater⟩ := converts_of_convertLoop hloop
    rw [List.nil_append, List.nil_append] at hpieces
    rw [hpieces]
    refine Converts.cons ?_ (ih hlater)
    rw [convertChunkToFrame_reading, hstep]
    rfl

lemma Converts.handleReadResult (h : Converts s chunks pieces s')
    {parser parser' : WebSocketFrameParser} {call : DecodeCall}
    (hdecode : parser.decode call.data call.address = some (true, parser', chunks))
    (hdata : call.data ≠ []) :
    (s.reading parser).handleReadResult (.bytes call) =
      some (if pieces = [] then .errIOPending else .ok, pieces, s'.reading parser') := by
  have hparser : (s.reading parser).parser.decode call.data call.address =
      some (true, parser', chunks) := hdecode
  rw [WebSocketBasicStream.handleReadResult, if_neg hdata, decodeAndConvert, hparser]
  cases chunks with
  | nil =>
    have heq := h []
    rw [convertLoop] at heq
    cases heq
    rfl
  | cons chunk chunks => exact (h.reading parser').convertChunksToFrames

/-- A read that gives no frames is not noticed. -/
lemma readAll_pending {calls : ℕ} {read : SocketRead} {reads : List SocketRead}
    {frames : List WebSocketFrame} {parser parser' : WebSocketFrameParser}
    (h : (s.reading parser).handleReadResult read =
      some (.errIOPending, frames, s'.reading parser')) :
    readAll (calls + 1) (read :: reads) (s.reading parser) =
      readAll (calls + 1) reads (s'.reading parser') := by
  have hframes : (s.reading parser).readFrames (read :: reads) =
      (s'.reading parser').readFrames reads := by
    rw [readFrames, readFrames]
    simp only [reading] at h ⊢
    rw [readLoop, h]
    rfl
  rw [readAll, readAll, hframes]

lemma readAll_ok {calls : ℕ} {read : SocketRead} {reads : List SocketRead}
    {frames : List WebSocketFrame} {parser : WebSocketFrameParser}
    (h : (s.reading parser).handleReadResult read = some (.ok, frames, s')) :
    readAll (calls + 1) (read :: reads) (s.reading parser) =
      (readAll calls reads s').map fun (result, more, s) => (result, frames ++ more, s) := by
  have hframes : (s.reading parser).readFrames (read :: reads) = some (.ok, frames, s', reads) := by
    rw [readFrames]
    simp only [reading] at h ⊢
    rw [readLoop, h]
    rfl
  rw [readAll, hframes]
  rfl

/-- All frames come out when the socket has given all bytes. -/
lemma readAll_of_converts (calls : List DecodeCall) (hdata : ∀ call ∈ calls, call.data ≠ [])
    {parser parser' : WebSocketFrameParser} {batches : List (List WebSocketFrameChunk)}
    (hcalls : parser.decodeCalls calls = some (batches, parser'))
    (h : Converts s batches.flatten pieces s') {n : ℕ} (hn : calls.length < n) :
    readAll n (calls.map .bytes) (s.reading parser) =
      some (.errIOPending, pieces, s'.reading parser') := by
  induction calls generalizing s pieces parser batches n with
  | nil =>
    cases hcalls
    have heq := h []
    rw [List.flatten_nil, convertLoop] at heq
    cases heq
    obtain ⟨m, rfl⟩ := Nat.exists_eq_add_of_lt hn
    rfl
  | cons call calls ih =>
    rw [List.forall_mem_cons] at hdata
    rw [List.length_cons] at hn
    rw [WebSocketFrameParser.decodeCalls] at hcalls
    cases hdecode : parser.decode call.data call.address with
    | none =>
      rw [hdecode] at hcalls
      cases hcalls
    | some result =>
      obtain ⟨ok, next, chunks⟩ := result
      rw [hdecode] at hcalls
      cases ok with
      | false => cases hcalls
      | true =>
        obtain ⟨⟨later, last⟩, hlater, heq⟩ := Option.map_eq_some_iff.mp hcalls
        cases heq
        rw [List.flatten_cons] at h
        obtain ⟨first, second, t, rfl, hfirst, hsecond⟩ := h.split
        have hread := hfirst.handleReadResult hdecode hdata.1
        obtain ⟨m, rfl⟩ := Nat.exists_eq_succ_of_ne_zero (Nat.ne_zero_of_lt hn)
        rw [List.map_cons]
        by_cases hnone : first = []
        · rw [if_pos hnone] at hread
          rw [readAll_pending hread, hnone, List.nil_append]
          exact ih hdata.2 hlater hsecond (by omega)
        · rw [if_neg hnone] at hread
          rw [readAll_ok hread, ih hdata.2 hlater hsecond (by omega)]
          rfl

/-- The data behind the HTTP headers is like a first read. -/
lemma readAll_buffered {bufferedData : DecodeCall} (hdata : bufferedData.data ≠ [])
    (calls : ℕ) (reads : List SocketRead) :
    readAll calls reads { httpReadBuffer := some bufferedData } =
      readAll calls (.bytes bufferedData :: reads) {} := by
  cases calls with
  | zero => rfl
  | succ calls =>
    have hframes : readFrames { httpReadBuffer := some bufferedData } reads =
        readFrames {} (.bytes bufferedData :: reads) := by
      rw [readFrames, readFrames, readLoop, WebSocketBasicStream.handleReadResult, if_neg hdata]
    rw [readAll, readAll, hframes]

/-- Valid frames, cut into chunks in any way and converted in any number of calls, or sent as
bytes and cut into reads: the pieces come out in order, and they are as they should be exactly when
no data frame with reserved bits is split. -/
theorem frames_delivered (frames : List Frame) (hvalid : ∀ f ∈ frames, f.header.Valid) :
    (∀ (cuts : List FrameCut) (batches : List (List WebSocketFrameChunk)),
      cuts.map (fun cut => (cut.header, cut.payload)) =
        frames.map (fun f => (f.header, f.payload)) →
      batches.flatten = cuts.flatMap FrameCut.chunks →
      convertCalls batches {} = some (cuts.flatMap FrameCut.pieces, {}) ∧
        ((∀ cut ∈ cuts, cut.Delivered) ↔ ∀ cut ∈ cuts, cut.ReservedUnsplit)) ∧
    ∃ wires, frames.mapM Frame.wire = some wires ∧
      ∀ (bufferedData : Option DecodeCall) (calls : List DecodeCall),
        (∀ call ∈ bufferedData.toList ++ calls, call.data ≠ []) →
        (bufferedData.toList ++ calls).flatMap DecodeCall.data = wires.flatten →
        ∃ (cuts : List FrameCut) (batches : List (List WebSocketFrameChunk))
          (s : WebSocketBasicStream),
          cuts.map (fun cut => (cut.header, cut.payload)) =
            frames.map (fun f => (f.header, f.payload)) ∧
          WebSocketFrameParser.decodeCalls (bufferedData.toList ++ calls) {} =
            some (batches, s.parser) ∧
          batches.flatten = cuts.flatMap FrameCut.chunks ∧
          (∀ n, calls.length + 1 < n →
            readAll n (calls.map .bytes) { httpReadBuffer := bufferedData } =
              some (.errIOPending, cuts.flatMap FrameCut.pieces, s)) ∧
          ((∀ cut ∈ cuts, cut.Delivered) ↔ ∀ cut ∈ cuts, cut.ReservedUnsplit) := by
  have hidle : Idle {} := ⟨rfl, rfl⟩
  have hcutsValid : ∀ cuts : List FrameCut, cuts.map (fun cut => (cut.header, cut.payload)) =
      frames.map (fun f => (f.header, f.payload)) → ∀ cut ∈ cuts, cut.header.Valid := by
    intro cuts hframes cut hcut
    have hmem := List.mem_map_of_mem (f := fun cut : FrameCut => (cut.header, cut.payload)) hcut
    rw [hframes] at hmem
    obtain ⟨f, hf, heq⟩ := List.mem_map.mp hmem
    rw [← (Prod.mk.inj heq).1]
    exact hvalid f hf
  have hiff : ∀ cuts : List FrameCut, (∀ cut ∈ cuts, cut.header.Valid) →
      ((∀ cut ∈ cuts, cut.Delivered) ↔ ∀ cut ∈ cuts, cut.ReservedUnsplit) := by
    intro cuts hvalid
    exact forall₂_congr fun cut hcut => delivered_iff cut (hvalid cut hcut)
  constructor
  · intro cuts batches hframes hbatches
    have hvalid' := hcutsValid cuts hframes
    refine ⟨?_, hiff cuts hvalid'⟩
    apply convertCalls_of_converts
    rw [hbatches]
    exact hidle.converts_cuts cuts hvalid'
  · obtain ⟨wires, hwires, hfeed⟩ := feedAll_wires frames
    refine ⟨wires, hwires, ?_⟩
    intro bufferedData calls hdata hbytes
    have hstage : ({} : WebSocketFrameParser).stage = .inHeader [] := rfl
    obtain ⟨batches, parser, hcalls, hevents, hne⟩ :=
      WebSocketFrameParser.between_init.decodeCalls (bufferedData.toList ++ calls)
        (by rw [hstage, hbytes, hfeed]; rfl)
    rw [hstage, hbytes, hfeed] at hevents
    obtain ⟨cuts, hcuts, hframes⟩ := exists_cuts hne hevents
    have hvalid' := hcutsValid cuts hframes
    refine ⟨cuts, batches, reading {} parser, hframes, hcalls, hcuts, ?_, hiff cuts hvalid'⟩
    intro n hn
    have hconverts := hidle.converts_cuts cuts hvalid'
    rw [← hcuts] at hconverts
    have hread := fun m (hm : (bufferedData.toList ++ calls).length < m) =>
      readAll_of_converts (bufferedData.toList ++ calls) hdata hcalls hconverts hm
    cases bufferedData with
    | none => exact hread n (Nat.lt_of_succ_lt hn)
    | some bufferedData =>
      rw [readAll_buffered (hdata bufferedData (by simp))]
      exact hread n hn

def twoLettersHeader (opcode : BitVec 32) (reserved1 : Bool) : WebSocketFrameHeader :=
  ⟨true, reserved1, false, false, opcode, false, 2⟩

/-- Two letters in two chunks, as a text or with another opcode. -/
def letterByLetter (opcode : BitVec 32) (reserved1 : Bool) : FrameCut where
  header := twoLettersHeader opcode reserved1
  first := some [0x61]
  rest := [some [0x62]]
  length_eq := rfl

/-- A ping and a text, each in two chunks, in two calls. -/
theorem frames_delivered_twoLetters :
    convertCalls [(letterByLetter kOpCodePing false).chunks ++
        (letterByLetter kOpCodeText false).chunks.take 1,
      (letterByLetter kOpCodeText false).chunks.drop 1] {} =
        some ([letterByLetter kOpCodePing false, letterByLetter kOpCodeText false].flatMap
          FrameCut.pieces, {}) ∧
      (letterByLetter kOpCodeText false).Delivered := by
  let ping : Frame := ⟨twoLettersHeader kOpCodePing false, fun _ => 0, [0x61, 0x62], 0, 2,
    by decide, rfl, by decide, by decide⟩
  let text : Frame := ⟨twoLettersHeader kOpCodeText false, fun _ => 0, [0x61, 0x62], 0, 2,
    by decide, rfl, by decide, by decide⟩
  have hvalid : ∀ f ∈ [ping, text], f.header.Valid := by
    rw [List.forall_mem_cons, List.forall_mem_singleton]
    exact ⟨.inr ⟨rfl, rfl, by decide⟩, .inl rfl⟩
  obtain ⟨hcalls, hdelivered⟩ := (frames_delivered [ping, text] hvalid).1
    [letterByLetter kOpCodePing false, letterByLetter kOpCodeText false]
    [(letterByLetter kOpCodePing false).chunks ++ (letterByLetter kOpCodeText false).chunks.take 1,
      (letterByLetter kOpCodeText false).chunks.drop 1] rfl rfl
  refine ⟨hcalls, hdelivered.mpr ?_ _ (by simp)⟩
  rw [List.forall_mem_cons, List.forall_mem_singleton]
  exact ⟨fun _ h => absurd rfl h, fun _ h => absurd rfl h⟩

/-- A text with RSV1 that comes in two reads: its second piece has RSV1 as well. -/
theorem reserved1_on_continuation :
    (letterByLetter kOpCodeText true).header.Valid ∧ ¬ (letterByLetter kOpCodeText true).Delivered ∧
      (readAll 3 [.bytes ⟨[0xC1, 0x02, 0x61], fun _ => 0⟩, .bytes ⟨[0x62], fun _ => 0⟩] {}).map
          (fun result => result.2.1.map fun frame =>
            (frame.header.opcode, frame.header.reserved, frame.payload)) =
        some [(kOpCodeText, (true, false, false), [0x61]),
          (kOpCodeContinuation, (true, false, false), [0x62])] := by
  refine ⟨.inl rfl, ?_, by decide +kernel⟩
  intro hdelivered
  obtain ⟨piece, hpiece, hreserved⟩ : ∃ piece ∈ (letterByLetter kOpCodeText true).pieces.tail,
      piece.header.reserved = (true, false, false) := ⟨_, List.mem_singleton_self _, rfl⟩
  have hnone := ((hdelivered.2 rfl).tail piece hpiece).2
  rw [hreserved] at hnone
  cases hnone

end WebSocketBasicStream

end Chromium.WebSocket
