import SshKeyring.Proofs.Agent.Exchange
import SshKeyring.Proofs.Agent.Frame

/-! A frame on its way to a client. The client gets the message of the frame in front of its stream,
in whatever pieces the frame comes, unless a silence comes before its end. On a stream that fails in
other ways it still gets that message or blames the stream. -/

namespace SshKeyring

open Wire

namespace Client

/-- On a smooth stream a request that can be written down goes out. -/
theorem perform_send_smooth {r : Request} {body : Bytes} {stream : Stream} (hs : stream.Smooth)
    (hr : r.encode = .ok body) (hl : body.length < countLimit) :
    ∃ later : Stream, (send r).perform { stream } = (.ok (), { stream := later }) ∧ later.Smooth ∧
      later.reads = stream.reads ∧ later.taken = stream.taken ++ stringBytes body := by
  have sent := hs.send Cursor.policy (stringBytes body)
  have nofault := hs.fault_send Cursor.policy (stringBytes body)
  refine ⟨_, ?_, sent.flushed, rfl, Stream.taken_of_send nofault⟩
  rw [perform_send_of_encode hr hl, perform_onCursor, Cursor.perform_flush]
  dsimp only
  rw [nofault, sent.perform_flush]
  rfl

/-- Where a frame's count is there, the message is what is read next. -/
theorem perform_readString_count {c : Cursor} {body rest : Bytes} {bs : List Bytes}
    {events : List ReadEvent} (hl : body.length ≤ Frame.maxLength)
    (hreads : c.stream.reads = Stream.pieces bs ++ events)
    (hbs : bs.flatten = putWord (UInt32.ofNat body.length) ++ rest) :
    ∃ left, left.flatten = rest ∧ Cursor.readString.perform c =
      (Cursor.readBytes body.length).perform
        { c with stream.reads := Stream.pieces left ++ events } := by
  obtain ⟨left, hleft, hcount⟩ := Stream.collect_front events hbs
  rw [length_putWord] at hcount
  refine ⟨left, hleft, ?_⟩
  rw [Cursor.perform_readString, hreads, hcount]
  dsimp only
  rw [Frame.toNat_count (Frame.lt_countLimit hl), if_neg (Nat.not_lt.2 hl)]

/-- A frame that is there is taken off the stream, and what follows it is left. -/
theorem perform_receive_pieces {c : Cursor} {body rest : Bytes} {bs : List Bytes}
    {events : List ReadEvent} (hl : body.length ≤ Frame.maxLength)
    (hreads : c.stream.reads = Stream.pieces bs ++ events)
    (hbs : bs.flatten = stringBytes body ++ rest) :
    ∃ left, left.flatten = rest ∧
      receive.perform c = ((Response.decode body).mapError .protocol,
        { c with stream.reads := Stream.pieces left ++ events }) := by
  rw [stringBytes, List.append_assoc] at hbs
  obtain ⟨inside, hinside, hread⟩ := perform_readString_count hl hreads hbs
  obtain ⟨left, hleft, hbody⟩ := Stream.collect_front events hinside
  refine ⟨left, hleft, ?_⟩
  rw [perform_receive, hread, Cursor.readBytes, Cursor.perform_read]
  dsimp only
  rw [hbody]
  rfl

/-- A frame whose count is too large is not looked at any further. -/
theorem perform_receive_long {c : Cursor} {body rest : Bytes} {bs : List Bytes}
    {events : List ReadEvent} (hl : body.length < countLimit) (hmax : Frame.maxLength < body.length)
    (hreads : c.stream.reads = Stream.pieces bs ++ events)
    (hbs : bs.flatten = stringBytes body ++ rest) :
    (receive.perform c).1 = .error (.protocol .unexpectedResponse) := by
  rw [stringBytes, List.append_assoc] at hbs
  obtain ⟨inside, -, hcount⟩ := Stream.collect_front events hbs
  rw [length_putWord] at hcount
  rw [perform_receive, Cursor.perform_readString, hreads, hcount]
  dsimp only
  rw [Frame.toNat_count hl, if_pos hmax]
  rfl

/-- A frame that a silence comes in the middle of is not waited for. -/
theorem perform_receive_silence {c : Cursor} {body : Bytes} {bs : List Bytes}
    {events : List ReadEvent} (hl : body.length ≤ Frame.maxLength)
    (hreads : c.stream.reads = Stream.pieces bs ++ .silence :: events)
    (h : bs.flatten <+: stringBytes body) (hpart : bs.flatten ≠ stringBytes body) :
    (receive.perform c).1 = .error .timeout := by
  rw [perform_receive]
  obtain hshort | ⟨part, hbs, hlt⟩ := Frame.shape_of_prefix h hpart
  · rw [Cursor.perform_readString, hreads, Stream.collect_silence 4 [] bs events hshort]
    rfl
  · obtain ⟨inside, hinside, hread⟩ := perform_readString_count hl hreads hbs
    rw [hread, Cursor.readBytes, Cursor.perform_read]
    dsimp only
    rw [Stream.collect_silence body.length [] inside events (by rwa [hinside])]
    rfl

/-- A request whose answer is there gets it. -/
theorem request_of_pieces {r : Request} {message body rest : Bytes} {stream : Stream}
    {bs : List Bytes} {events : List ReadEvent} (hs : stream.Smooth) (hr : r.encode = .ok message)
    (hm : message.length < countLimit) (hl : body.length ≤ Frame.maxLength)
    (hreads : stream.reads = Stream.pieces bs ++ events)
    (hbs : bs.flatten = stringBytes body ++ rest) :
    ∃ later : Stream, later.Smooth ∧
      (∃ left, left.flatten = rest ∧ later.reads = Stream.pieces left ++ events) ∧
      (request r).perform { stream } =
        (((Response.decode body).mapError .protocol).bind (·.outcome r), { stream := later }) := by
  obtain ⟨sent, hsent, hsmooth, hsentreads, -⟩ := perform_send_smooth hs hr hm
  rw [hreads] at hsentreads
  obtain ⟨left, hleft, hreceive⟩ := perform_receive_pieces (c := ⟨sent, []⟩) hl hsentreads hbs
  refine ⟨{ sent with reads := Stream.pieces left ++ events },
    ⟨hsmooth.writes, hsmooth.flushes⟩, ⟨left, hleft, rfl⟩, ?_⟩
  rw [perform_request, hsent]
  dsimp only
  rw [hreceive]

/-- A request whose answer is not there in full before a silence is given up. -/
theorem request_of_silence {r : Request} {message body : Bytes} {stream : Stream} {bs : List Bytes}
    {events : List ReadEvent} (hs : stream.Smooth) (hr : r.encode = .ok message)
    (hm : message.length < countLimit) (hl : body.length ≤ Frame.maxLength)
    (hreads : stream.reads = Stream.pieces bs ++ .silence :: events)
    (h : bs.flatten <+: stringBytes body) (hpart : bs.flatten ≠ stringBytes body) :
    ((request r).perform { stream }).1 = .error .timeout := by
  obtain ⟨sent, hsent, -, hsentreads, -⟩ := perform_send_smooth hs hr hm
  rw [hreads] at hsentreads
  rw [perform_request, hsent]
  dsimp only
  rw [perform_receive_silence (c := ⟨sent, []⟩) hl hsentreads h hpart]
  rfl

/-! ### On any stream -/

theorem blamesStream_whileReading (task : CursorTask) {e : IoError}
    (h : e.kind ≠ .unexpectedEof) :
    (CursorError.whileReading task e).toAgentError.blamesStream = true := by
  unfold CursorError.whileReading
  split
  · next hkind => exact absurd hkind h
  · rfl
  · rfl
  · rfl

theorem blamesStream_whileWriting (e : IoError) :
    (CursorError.whileWriting e).toAgentError.blamesStream = true := by
  unfold CursorError.whileWriting
  split <;> rfl

/-- Whether a request that can be written down goes out is up to the stream. -/
theorem perform_send_or_fails {r : Request} {body : Bytes} (stream : Stream)
    (hr : r.encode = .ok body) (hl : body.length < countLimit) :
    (∃ later : Stream, later.reads = stream.reads ∧
        (send r).perform { stream } = (.ok (), { stream := later })) ∨
      ∃ e later, (send r).perform { stream } = (.error e, later) ∧ e.blamesStream = true := by
  rw [perform_send_of_encode hr hl, perform_onCursor, Cursor.perform_flush]
  dsimp only
  cases (stream.send Cursor.policy (stringBytes body)).1.fault with
  | some e => exact .inr ⟨_, _, rfl, blamesStream_whileWriting e⟩
  | none =>
    rw [Stream.perform_flush]
    dsimp only
    split
    · next e _ => exact .inr ⟨_, _, rfl, blamesStream_whileWriting e⟩
    · refine .inl ⟨_, ?_, rfl⟩
      rfl

/-- Where no more than the frame of an answer comes in, and the stream does not end, a request gets
that answer and leaves nothing to be read, or the stream has failed. -/
theorem request_of_heard {r : Request} {message body : Bytes} {stream : Stream}
    (hr : r.encode = .ok message) (hm : message.length < countLimit)
    (hl : body.length ≤ Frame.maxLength) (hlasts : Stream.Lasts stream.reads)
    (h : Stream.heard stream.reads <+: stringBytes body) :
    (((request r).perform { stream }).1 =
          ((Response.decode body).mapError .protocol).bind (·.outcome r) ∧
        Stream.heard stream.reads = stringBytes body ∧
        Stream.heard ((request r).perform { stream }).2.stream.reads = [] ∧
        Stream.Lasts ((request r).perform { stream }).2.stream.reads) ∨
      ∃ e, ((request r).perform { stream }).1 = .error e ∧ e.blamesStream = true := by
  rw [perform_request]
  obtain ⟨later, hreads, hsent⟩ | ⟨e, later, hsent, hblames⟩ := perform_send_or_fails stream hr hm
  · rw [hsent]
    dsimp only
    rw [perform_receive]
    rw [← hreads] at hlasts h ⊢
    obtain ⟨hread, hwhole, hleft⟩ | ⟨task, e, hread, hkind⟩ :=
      Cursor.readString_of_heard (c := { stream := later }) hl hlasts h
    · rw [hread]
      exact .inl ⟨rfl, hwhole, hleft, Cursor.lasts_readString (c := { stream := later }) hlasts⟩
    · rw [hread]
      exact .inr ⟨_, rfl, blamesStream_whileReading task hkind⟩
  · rw [hsent]
    exact .inr ⟨e, rfl, hblames⟩

end Client

end SshKeyring
