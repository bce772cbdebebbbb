import SshKeyring.Agent.BufferedClient
import SshKeyring.Proofs.Agent.Frame
import SshKeyring.Proofs.Agent.Stream

/-! A buffered client that waits for one frame. It takes in the data as it comes, as much at a time
as its inbox has room for; all that matters of the inbox is which front of the frame it holds. With
the last byte of the frame the client has the message, and what came with that byte is left for the
requests after it. At a silence before that byte the client gives up. On a stream that fails in
other ways it still has that message or blames the stream. -/

namespace SshKeyring

open Wire

/-! ### The inbox -/

namespace Inbox

theorem perform_decode_of_frame {i : Inbox} {body rest : Bytes}
    (hl : body.length ≤ Frame.maxLength) (h : i.bytes = stringBytes body ++ rest) :
    ∃ later : Inbox, later.bytes = rest ∧ decode.perform i =
      (((Response.decode body).mapError AgentError.protocol).map some, later) := by
  refine ⟨i.dropTo rest, rfl, ?_⟩
  unfold decode
  rw [Steps.perform_bind, Steps.perform_get]
  dsimp only
  rw [h, Frame.perform_decode_of_frame hl]
  cases Response.decode body <;> rfl

theorem perform_decode_of_prefix {i : Inbox} {body : Bytes} (hl : body.length ≤ Frame.maxLength)
    (h : i.bytes <+: stringBytes body) (hpart : i.bytes ≠ stringBytes body) :
    ∃ later : Inbox, later.bytes = i.bytes ∧ decode.perform i = (.ok none, later) := by
  refine ⟨(i.dropTo i.bytes).reserve (Frame.missing i.bytes), bytes_reserve _ _, ?_⟩
  unfold decode
  rw [Steps.perform_bind, Steps.perform_get]
  dsimp only
  rw [Frame.perform_decode_of_prefix hl h hpart]
  rfl

end Inbox

namespace BufferedClient

theorem perform_decode (c : BufferedClient) :
    decode.perform c =
      match Inbox.decode.perform c.inbox with
      | (.ok r, inbox) => (.ok r, { c with inbox })
      | (.error e, inbox) => (.error e, { c with inbox, failed := true }) := by
  unfold decode
  rw [Steps.perform_bind, Steps.perform_get]
  dsimp only
  rcases Inbox.decode.perform c.inbox with ⟨_ | _, _⟩ <;> rfl

/-- The client after a read of what there is room for of the data, before it looks at the inbox. -/
def taking (events : List ReadEvent) (b : Bytes) (c : BufferedClient) : BufferedClient :=
  let inbox := c.inbox.reserve 1
  { c with
    stream := { c.stream with reads := .data (b.drop inbox.room) :: events }
    inbox := inbox.append (b.take inbox.room)
    ended := false
    readable := true }

/-- What comes of looking for a message and, where there is none yet, going on. -/
def orElse (out : Except AgentError (Option Response) × BufferedClient)
    (onward : BufferedClient → Except AgentError (Option Response) × BufferedClient) :
    Except AgentError (Option Response) × BufferedClient :=
  match out with
  | (.ok none, later) => onward later
  | out => out

theorem perform_readData_succ (events : List ReadEvent) (fuel : Nat) {b : Bytes} (hb : b ≠ [])
    (c : BufferedClient) :
    (readData events (fuel + 1) b).perform c =
      orElse (decode.perform (c.taking events b)) fun later =>
        (readData events fuel (b.drop (c.inbox.reserve 1).room)).perform
          { later with readable := false } := by
  rw [readData, if_neg hb, Steps.perform_bind, Steps.perform_get]
  dsimp only
  rw [Steps.perform_bind, Steps.perform_set]
  dsimp only
  rw [Steps.perform_bind, ← taking]
  rcases decode.perform (c.taking events b) with ⟨_ | _ | _, _⟩ <;> rfl

theorem perform_readOn_data (b : Bytes) (events : List ReadEvent) (c : BufferedClient) :
    (readOn (.data b :: events)).perform c =
      orElse ((readData events b.length b).perform c) (readOn events).perform := by
  rw [readOn, Steps.perform_bind]
  rcases (readData events b.length b).perform c with ⟨_ | _ | _, _⟩ <;> rfl

/-- Nothing has gone wrong on the connection, and nothing waits to be sent. -/
structure Ready (c : BufferedClient) : Prop where
  outbox : c.outbox = []
  ended : c.ended = false
  failed : c.failed = false

/-- A message has been taken in, and what is behind its frame is left, in the inbox or still to be
read. One that does not decode is a failure. -/
structure Got (body rest : Bytes) (events : List ReadEvent)
    (out : Except AgentError (Option Response) × BufferedClient) : Prop where
  result : out.1 = ((Response.decode body).mapError .protocol).map some
  reads : ∃ left, out.2.inbox.bytes ++ left.flatten = rest ∧
    out.2.stream.reads = Stream.pieces left ++ events
  ready : ∀ a, Response.decode body = .ok a → out.2.Ready ∧ out.2.readable = true

theorem Ready.taking {c : BufferedClient} (h : c.Ready) (events : List ReadEvent) (b : Bytes) :
    (c.taking events b).Ready :=
  ⟨h.outbox, rfl, h.failed⟩

theorem bytes_taking (events : List ReadEvent) (b : Bytes) (c : BufferedClient) :
    (c.taking events b).inbox.bytes = c.inbox.bytes ++ b.take (c.inbox.reserve 1).room := by
  simp [taking, Inbox.append]

/-- Before a front that is not everything there is nothing that is. -/
theorem ne_of_append {a b whole : Bytes} (h : a ++ b <+: whole) (hpart : a ++ b ≠ whole) :
    a ≠ whole := by
  rintro rfl
  exact hpart (h.eq_of_length_le (by rw [List.length_append]; omega))

theorem append_eq_taken (c : BufferedClient) {b : Bytes} :
    c.inbox.bytes ++ b = c.inbox.bytes ++ b.take (c.inbox.reserve 1).room ++
      b.drop (c.inbox.reserve 1).room := by
  rw [List.append_assoc, List.take_append_drop]

/-- What goes on only where there is no message yet does not change one that there is. -/
theorem Got.stands {body rest : Bytes} {events : List ReadEvent}
    {out : Except AgentError (Option Response) × BufferedClient}
    (onward : BufferedClient → Except AgentError (Option Response) × BufferedClient) :
    Got body rest events out → orElse out onward = out := by
  rintro ⟨hresult, -, -⟩
  obtain ⟨result, later⟩ := out
  dsimp only at hresult
  subst hresult
  cases Response.decode body <;> rfl

/-- What has come in so far holds a frame as a whole or only a front of it. -/
theorem whole_or_part {front later whole rest : Bytes} (h : front ++ later = whole ++ rest) :
    (∃ spare, front = whole ++ spare ∧ spare ++ later = rest) ∨ front <+: whole ∧ front ≠ whole := by
  obtain ⟨missing, rfl, rfl⟩ | ⟨spare, rfl, rfl⟩ := List.append_eq_append_iff.1 h
  · by_cases hm : missing = []
    · exact .inl ⟨[], by simp [hm], by simp [hm]⟩
    · exact .inr ⟨List.prefix_append _ _, by simpa [eq_comm] using hm⟩
  · exact .inl ⟨spare, rfl, rfl⟩

/-- While only a front of a frame has come in, there is more to come. -/
theorem ne_nil_of_part {front later whole rest : Bytes} (h : front ++ later = whole ++ rest)
    (hfront : front <+: whole) (hpart : front ≠ whole) : later ≠ [] := by
  rintro rfl
  rw [List.append_nil] at h
  rw [h] at hfront hpart
  exact hpart (hfront.eq_of_length_le (by simp))

section Frame

variable {body : Bytes} (hl : body.length ≤ Frame.maxLength)
include hl

theorem got_of_decode {c : BufferedClient} {spare rest : Bytes} {left : List Bytes}
    {events : List ReadEvent} (hc : c.Ready) (hreadable : c.readable = true)
    (hb : c.inbox.bytes = stringBytes body ++ spare) (hleft : spare ++ left.flatten = rest)
    (hreads : c.stream.reads = Stream.pieces left ++ events) :
    Got body rest events (decode.perform c) := by
  obtain ⟨inbox, hinbox, hd⟩ := Inbox.perform_decode_of_frame hl hb
  rw [perform_decode, hd]
  subst hinbox
  cases h : Response.decode body with
  | error e => exact ⟨by rw [h]; rfl, ⟨left, hleft, hreads⟩, by simp [h]⟩
  | ok a =>
    exact ⟨by rw [h]; rfl, ⟨left, hleft, hreads⟩,
      fun _ _ => ⟨⟨hc.outbox, hc.ended, hc.failed⟩, hreadable⟩⟩

theorem decode_of_prefix {c : BufferedClient} (hb : c.inbox.bytes <+: stringBytes body)
    (hpart : c.inbox.bytes ≠ stringBytes body) :
    ∃ inbox : Inbox, inbox.bytes = c.inbox.bytes ∧
      decode.perform c = (.ok none, { c with inbox }) := by
  obtain ⟨inbox, hinbox, hd⟩ := Inbox.perform_decode_of_prefix hl hb hpart
  refine ⟨inbox, hinbox, ?_⟩
  rw [perform_decode, hd]

/-- A read that does not bring the end of the frame leaves the client waiting for it. -/
theorem readData_step {b : Bytes} {c : BufferedClient} (fuel : Nat) (events : List ReadEvent)
    (hc : c.Ready) (hb : b ≠ [])
    (hfront : c.inbox.bytes ++ b.take (c.inbox.reserve 1).room <+: stringBytes body)
    (hpart : c.inbox.bytes ++ b.take (c.inbox.reserve 1).room ≠ stringBytes body) :
    ∃ later : BufferedClient, later.Ready ∧
      later.inbox.bytes = c.inbox.bytes ++ b.take (c.inbox.reserve 1).room ∧
      (readData events (fuel + 1) b).perform c =
        (readData events fuel (b.drop (c.inbox.reserve 1).room)).perform later := by
  rw [← bytes_taking events] at hfront hpart ⊢
  obtain ⟨inbox, hinbox, hd⟩ := decode_of_prefix hl hfront hpart
  have taken := hc.taking events b
  refine ⟨{ c.taking events b with inbox, readable := false },
    ⟨taken.outbox, taken.ended, taken.failed⟩, hinbox, ?_⟩
  rw [perform_readData_succ events fuel hb, hd]
  rfl

theorem readData_of_prefix {fuel : Nat} {b : Bytes} {c : BufferedClient} (events : List ReadEvent)
    (hc : c.Ready) (hfuel : b.length ≤ fuel) (hfront : c.inbox.bytes ++ b <+: stringBytes body)
    (hpart : c.inbox.bytes ++ b ≠ stringBytes body) :
    ∃ later : BufferedClient, later.Ready ∧ later.inbox.bytes = c.inbox.bytes ++ b ∧
      (readData events fuel b).perform c = (.ok none, later) := by
  induction fuel generalizing b c with
  | zero =>
    obtain rfl := List.length_eq_zero_iff.1 (Nat.le_zero.1 hfuel)
    exact ⟨c, hc, by simp, rfl⟩
  | succ fuel ih =>
    by_cases hb : b = []
    · subst hb
      exact ⟨c, hc, by simp, rfl⟩
    have room := Inbox.le_room_reserve 1 c.inbox
    rw [append_eq_taken c] at hfront hpart ⊢
    have hmid := (List.prefix_append _ _).trans hfront
    have hmidpart := ne_of_append hfront hpart
    obtain ⟨next, hnext, hbytes, hstep⟩ := readData_step hl fuel events hc hb hmid hmidpart
    rw [← hbytes] at hfront hpart ⊢
    rw [hstep]
    exact ih hnext (by rw [List.length_drop]; omega) hfront hpart

theorem got_of_readData {fuel : Nat} {b rest : Bytes} {c : BufferedClient}
    (events : List ReadEvent) (hc : c.Ready) (hfuel : b.length ≤ fuel)
    (hwhole : c.inbox.bytes ++ b = stringBytes body ++ rest)
    (hfront : c.inbox.bytes <+: stringBytes body) (hpart : c.inbox.bytes ≠ stringBytes body) :
    Got body rest events ((readData events fuel b).perform c) := by
  have hb := ne_nil_of_part hwhole hfront hpart
  induction fuel generalizing b c with
  | zero => exact absurd (List.length_eq_zero_iff.1 (Nat.le_zero.1 hfuel)) hb
  | succ fuel ih =>
    have room := Inbox.le_room_reserve 1 c.inbox
    rw [append_eq_taken c] at hwhole
    obtain ⟨spare, hmid, hspare⟩ | ⟨hmid, hmidpart⟩ := whole_or_part hwhole
    · have later : (c.taking events b).stream.reads =
          Stream.pieces [b.drop (c.inbox.reserve 1).room] ++ events := rfl
      have got : Got body rest events (decode.perform (c.taking events b)) :=
        got_of_decode hl (hc.taking events b) rfl (by rw [bytes_taking, hmid])
          (by simpa using hspare) later
      rw [perform_readData_succ events fuel hb, got.stands]
      exact got
    · obtain ⟨next, hnext, hbytes, hstep⟩ := readData_step hl fuel events hc hb hmid hmidpart
      rw [← hbytes] at hwhole hmid hmidpart
      rw [hstep]
      exact ih hnext (by rw [List.length_drop]; omega) hwhole hmid hmidpart
        (ne_nil_of_part hwhole hmid hmidpart)

/-! ### Reading on -/

/-- Data that holds the rest of a frame, in whatever pieces, gives its message. -/
theorem got_of_readOn {rest : Bytes} {bs : List Bytes} {c : BufferedClient}
    (events : List ReadEvent) (hc : c.Ready)
    (hwhole : c.inbox.bytes ++ bs.flatten = stringBytes body ++ rest)
    (hfront : c.inbox.bytes <+: stringBytes body) (hpart : c.inbox.bytes ≠ stringBytes body) :
    Got body rest events ((readOn (Stream.pieces bs ++ events)).perform c) := by
  induction bs generalizing c with
  | nil => exact absurd rfl (ne_nil_of_part hwhole hfront hpart)
  | cons b bs ih =>
    rw [List.flatten_cons, ← List.append_assoc] at hwhole
    rw [Stream.pieces, List.map_cons, List.cons_append, perform_readOn_data, ← Stream.pieces]
    obtain ⟨spare, hb, hspare⟩ | ⟨hb, hbpart⟩ := whole_or_part hwhole
    · have got := got_of_readData hl (Stream.pieces bs ++ events) hc (Nat.le_refl _) hb hfront hpart
      rw [got.stands]
      obtain ⟨left, hleft, hreads⟩ := got.reads
      refine ⟨got.result, ⟨left ++ bs, ?_, ?_⟩, got.ready⟩
      · rw [List.flatten_append, ← List.append_assoc, hleft, hspare]
      · rw [hreads, Stream.pieces, Stream.pieces, Stream.pieces, List.map_append, List.append_assoc]
    · obtain ⟨next, hnext, hbytes, hread⟩ := readData_of_prefix hl (Stream.pieces bs ++ events) hc
        (Nat.le_refl _) hb hbpart
      rw [← hbytes] at hwhole hb hbpart
      rw [hread]
      exact ih hnext hwhole hb hbpart

/-- Data that does not hold the rest of the frame, before a silence, is waited for in vain. -/
theorem readOn_of_prefix {bs : List Bytes} {c : BufferedClient} (events : List ReadEvent)
    (hc : c.Ready) (hfront : c.inbox.bytes ++ bs.flatten <+: stringBytes body)
    (hpart : c.inbox.bytes ++ bs.flatten ≠ stringBytes body) :
    ((readOn (Stream.pieces bs ++ .silence :: events)).perform c).1 = .error .timeout := by
  induction bs generalizing c with
  | nil => rfl
  | cons b bs ih =>
    rw [List.flatten_cons, ← List.append_assoc] at hfront hpart
    obtain ⟨next, hnext, hbytes, hread⟩ := readData_of_prefix hl
      (Stream.pieces bs ++ .silence :: events) hc (Nat.le_refl _)
      ((List.prefix_append _ _).trans hfront) (ne_of_append hfront hpart)
    rw [← hbytes] at hfront hpart
    rw [Stream.pieces, List.map_cons, List.cons_append, perform_readOn_data, ← Stream.pieces, hread]
    exact ih hnext hfront hpart

end Frame

/-! ### The next message -/

/-- What is in the inbox may be the next message; otherwise the client reads on. -/
theorem perform_next {c : BufferedClient} (hended : c.ended = false) (hfailed : c.failed = false) :
    next.perform c =
      orElse (if c.readable then decode.perform c else (.ok none, c)) fun later =>
        (readOn c.stream.reads).perform { later with readable := false } := by
  obtain ⟨stream, inbox, outbox, ended, readable, failed⟩ := c
  obtain rfl : ended = false := hended
  obtain rfl : failed = false := hfailed
  cases readable with
  | false => rfl
  | true =>
    unfold next
    rw [Steps.perform_bind, Steps.perform_get]
    simp only [Bool.false_eq_true, if_false, if_true]
    rw [Steps.perform_bind]
    rcases decode.perform _ with ⟨_ | _ | _, _⟩ <;> rfl

section Frame

variable {body : Bytes} (hl : body.length ≤ Frame.maxLength)
include hl

/-- A client that has only a front of a frame reads on. -/
theorem next_of_prefix {c : BufferedClient} (hc : c.Ready)
    (hfront : c.inbox.bytes <+: stringBytes body) (hpart : c.inbox.bytes ≠ stringBytes body) :
    ∃ later : BufferedClient, later.Ready ∧ later.inbox.bytes = c.inbox.bytes ∧
      next.perform c = (readOn c.stream.reads).perform later := by
  obtain ⟨inbox, hinbox, hd⟩ := decode_of_prefix hl hfront hpart
  rw [perform_next hc.ended hc.failed, hd]
  by_cases hreadable : c.readable = true
  · rw [if_pos hreadable]
    exact ⟨{ c with inbox, readable := false },
      ⟨hc.outbox, hc.ended, hc.failed⟩, hinbox, rfl⟩
  · rw [if_neg hreadable]
    exact ⟨{ c with readable := false },
      ⟨hc.outbox, hc.ended, hc.failed⟩, rfl, rfl⟩

/-- A client that the next frame comes to, or has come to in part or as a whole, gets its
message. -/
theorem got_of_next {rest : Bytes} {bs : List Bytes} {c : BufferedClient} {events : List ReadEvent}
    (hc : c.Ready) (hidle : c.readable = false → c.inbox.bytes = [])
    (hwhole : c.inbox.bytes ++ bs.flatten = stringBytes body ++ rest)
    (hreads : c.stream.reads = Stream.pieces bs ++ events) :
    Got body rest events (next.perform c) := by
  obtain ⟨spare, hb, hspare⟩ | ⟨hfront, hpart⟩ := whole_or_part hwhole
  · have hreadable : c.readable = true := by
      by_contra h
      rw [hidle (by simpa using h), eq_comm, List.append_eq_nil_iff] at hb
      exact stringBytes_ne_nil body hb.1
    have got := got_of_decode hl hc hreadable hb hspare hreads
    rw [perform_next hc.ended hc.failed, if_pos hreadable, got.stands]
    exact got
  · obtain ⟨later, hlater, hbytes, hnext⟩ := next_of_prefix hl hc hfront hpart
    rw [hnext, hreads]
    rw [← hbytes] at hwhole hfront hpart
    exact got_of_readOn hl events hlater hwhole hfront hpart

end Frame

/-! ### What reading leaves alone -/

/-- All of a client that has to do with writing. -/
def outgoing (c : BufferedClient) : Bytes × Stream := (c.outbox, { c.stream with reads := [] })

theorem outgoing_decode (c : BufferedClient) : (decode.perform c).2.outgoing = c.outgoing := by
  rw [perform_decode]
  split <;> rfl

theorem outgoing_orElse {out : Except AgentError (Option Response) × BufferedClient}
    {onward : BufferedClient → Except AgentError (Option Response) × BufferedClient}
    {c : BufferedClient} (hout : out.2.outgoing = c.outgoing)
    (honward : ∀ later, (onward later).2.outgoing = later.outgoing) :
    (orElse out onward).2.outgoing = c.outgoing := by
  obtain ⟨_ | _ | _, later⟩ := out
  · exact hout
  · exact (honward later).trans hout
  · exact hout

theorem perform_decodeAtEnd (c : BufferedClient) :
    decodeAtEnd.perform c = orElse (decode.perform c) fun later =>
      if later.inbox.bytes.isEmpty then (.ok none, { later with readable := false })
      else (.error (.io bytesRemaining), { later with failed := true }) := by
  unfold decodeAtEnd
  rw [Steps.perform_bind]
  rcases decode.perform c with ⟨_ | _ | _, later⟩
  · rfl
  · dsimp only [orElse]
    rw [Steps.perform_bind, Steps.perform_get]
    dsimp only
    split <;> rfl
  · rfl

theorem outgoing_decodeAtEnd (c : BufferedClient) :
    (decodeAtEnd.perform c).2.outgoing = c.outgoing := by
  rw [perform_decodeAtEnd]
  exact outgoing_orElse (outgoing_decode c) fun later => by split <;> rfl

theorem outgoing_readData (events : List ReadEvent) (fuel : Nat) (b : Bytes) (c : BufferedClient) :
    ((readData events fuel b).perform c).2.outgoing = c.outgoing := by
  induction fuel generalizing b c with
  | zero => rfl
  | succ fuel ih =>
    by_cases hb : b = []
    · subst hb
      rfl
    have kept : (decode.perform (c.taking events b)).2.outgoing = c.outgoing :=
      outgoing_decode (c.taking events b)
    rw [perform_readData_succ events fuel hb]
    exact outgoing_orElse kept fun later => ih _ _

theorem outgoing_readOn (events : List ReadEvent) (c : BufferedClient) :
    ((readOn events).perform c).2.outgoing = c.outgoing := by
  induction events generalizing c with
  | nil =>
    unfold readOn
    rw [Steps.perform_bind, Steps.perform_get]
    dsimp only
    split
    · rfl
    · exact outgoing_decodeAtEnd _
  | cons event events ih =>
    cases event with
    | silence => rfl
    | fail e => rfl
    | data b =>
      rw [perform_readOn_data]
      exact outgoing_orElse (outgoing_readData events b.length b c) ih

/-- Looking for the next message, whatever comes of it, leaves alone what has to do with writing. -/
theorem outgoing_next (c : BufferedClient) : (next.perform c).2.outgoing = c.outgoing := by
  by_cases hgoing : c.ended = false ∧ c.failed = false
  · rw [perform_next hgoing.1 hgoing.2]
    refine outgoing_orElse ?_ fun later => outgoing_readOn _ _
    split
    · exact outgoing_decode c
    · rfl
  · unfold next
    rw [Steps.perform_bind, Steps.perform_get]
    dsimp only
    split
    · rfl
    · next hfailed =>
      have hended : c.ended = true := by simpa [hfailed] using hgoing
      rw [if_pos hended]
      split
      · exact outgoing_decodeAtEnd c
      · exact outgoing_readOn _ _

theorem outbox_next (c : BufferedClient) : (next.perform c).2.outbox = c.outbox :=
  congrArg (fun out : Bytes × Stream => out.1) (outgoing_next c)

theorem taken_next (c : BufferedClient) : (next.perform c).2.stream.taken = c.stream.taken :=
  congrArg (fun out : Bytes × Stream => out.2.taken) (outgoing_next c)

theorem smooth_next {c : BufferedClient} (h : c.stream.Smooth) :
    (next.perform c).2.stream.Smooth := by
  obtain ⟨-, hstream⟩ := Prod.mk.inj (outgoing_next c)
  obtain ⟨-, hwrites, hflushes, -⟩ := Stream.mk.inj hstream
  exact ⟨hwrites ▸ h.writes, hflushes ▸ h.flushes⟩

/-! ### Requests -/

theorem perform_flush (c : BufferedClient) :
    flush.perform c =
      match c.stream.send policy c.outbox with
      | (w, s) =>
        match w.fault with
        | some e => (.error (.io e), { c with stream := s, outbox := w.left })
        | none =>
          ((Stream.flush.perform s).1.mapError .io,
            { c with stream := (Stream.flush.perform s).2, outbox := w.left }) := by
  unfold flush
  simp only [Steps.perform_bind, Steps.perform_get]
  cases (c.stream.send policy c.outbox).1.fault <;> rfl

/-- With nothing before it, a request that can be written down is all that a flush sends. -/
theorem perform_send {r : Request} {frame : Bytes} {c : BufferedClient} (ho : c.outbox = [])
    (hr : Frame.encode r = .ok frame) :
    (send r).perform c = flush.perform { c with outbox := frame } := by
  obtain ⟨stream, inbox, outbox, ended, readable, failed⟩ := c
  obtain rfl : outbox = [] := ho
  unfold send
  rw [Steps.perform_bind, Steps.perform_get]
  dsimp only
  rw [hr]
  rfl

/-- On a smooth stream such a request goes out. -/
theorem perform_send_smooth {r : Request} {frame : Bytes} {c : BufferedClient}
    (hs : c.stream.Smooth) (ho : c.outbox = []) (hr : Frame.encode r = .ok frame) :
    ∃ later : Stream, (send r).perform c = (.ok (), { c with stream := later }) ∧ later.Smooth ∧
      later.reads = c.stream.reads ∧ later.taken = c.stream.taken ++ frame := by
  have sent := hs.send policy frame
  have nofault := hs.fault_send policy frame
  have empty : (c.stream.send policy frame).1.left = [] := Stream.left_of_fault_none nofault
  refine ⟨_, ?_, sent.flushed, rfl, Stream.taken_of_send nofault⟩
  rw [perform_send ho hr, perform_flush]
  dsimp only
  rw [nofault, empty, sent.perform_flush, ← ho]
  rfl

/-- On any stream, whether it goes out is up to the stream. -/
theorem perform_send_or_fails {r : Request} {frame : Bytes} {c : BufferedClient}
    (ho : c.outbox = []) (hr : Frame.encode r = .ok frame) :
    (∃ later : Stream, later.reads = c.stream.reads ∧
        (send r).perform c = (.ok (), { c with stream := later })) ∨
      ∃ e later, (send r).perform c = (.error e, later) ∧ e.blamesStream = true := by
  rw [perform_send ho hr, perform_flush]
  dsimp only
  cases hfault : (c.stream.send policy frame).1.fault with
  | some e => exact .inr ⟨_, _, rfl, rfl⟩
  | none =>
    have empty : (c.stream.send policy frame).1.left = [] := Stream.left_of_fault_none hfault
    rw [Stream.perform_flush, empty, ← ho]
    dsimp only
    split
    · exact .inr ⟨_, _, rfl, rfl⟩
    · refine .inl ⟨_, ?_, rfl⟩
      rfl

theorem perform_send_error {r : Request} {e : AgentError} {c : BufferedClient} (ho : c.outbox = [])
    (hr : Frame.encode r = .error e) : (send r).perform c = (.error e, c) := by
  unfold send
  rw [Steps.perform_bind, Steps.perform_get]
  dsimp only
  rw [ho, hr]
  rfl

theorem perform_request (r : Request) (c : BufferedClient) :
    (request r).perform c =
      match (send r).perform c with
      | (.error e, sent) => (.error e, sent)
      | (.ok (), sent) =>
        match next.perform sent with
        | (.error e, later) => (.error e, later)
        | (.ok none, later) => (.error (.protocol .disconnected), later)
        | (.ok (some a), later) => (a.outcome r, later) := by
  unfold request exchange
  rw [Steps.perform_bind, Steps.perform_bind]
  rcases (send r).perform c with ⟨_ | _, sent⟩
  · rfl
  · dsimp only
    rw [Steps.perform_bind]
    rcases next.perform sent with ⟨_ | _ | _, _⟩ <;> rfl

/-- A request whose answer is there gets it. The client is as ready as before unless the answer
does not decode. -/
theorem request_of_pieces {r : Request} {frame body rest : Bytes} {c : BufferedClient}
    {bs : List Bytes} {events : List ReadEvent} (hc : c.Ready) (hs : c.stream.Smooth)
    (hidle : c.readable = false → c.inbox.bytes = []) (hr : Frame.encode r = .ok frame)
    (hl : body.length ≤ Frame.maxLength) (hreads : c.stream.reads = Stream.pieces bs ++ events)
    (hbs : c.inbox.bytes ++ bs.flatten = stringBytes body ++ rest) :
    ∃ later : BufferedClient, later.stream.Smooth ∧
      (∀ a, Response.decode body = .ok a → later.Ready ∧ later.readable = true) ∧
      (∃ left, later.inbox.bytes ++ left.flatten = rest ∧
        later.stream.reads = Stream.pieces left ++ events) ∧
      (request r).perform c =
        (((Response.decode body).mapError .protocol).bind (·.outcome r), later) := by
  obtain ⟨stream, hsent, hsmooth, hsentreads, -⟩ := perform_send_smooth hs hc.outbox hr
  rw [hreads] at hsentreads
  have ready : Ready { c with stream } := ⟨hc.outbox, hc.ended, hc.failed⟩
  have got := got_of_next hl ready hidle hbs hsentreads
  have smooth := smooth_next (c := { c with stream }) hsmooth
  rw [perform_request, hsent]
  dsimp only
  generalize next.perform { c with stream } = out at got smooth
  obtain ⟨result, later⟩ := out
  obtain ⟨hresult, hleft, hready⟩ := got
  refine ⟨later, smooth, hready, hleft, ?_⟩
  obtain rfl : result = _ := hresult
  cases Response.decode body <;> rfl

/-- A request whose answer is not there in full before a silence is given up. -/
theorem request_of_silence {r : Request} {frame body : Bytes} {c : BufferedClient} {bs : List Bytes}
    {events : List ReadEvent} (hc : c.Ready) (hs : c.stream.Smooth) (hb : c.inbox.bytes = [])
    (hr : Frame.encode r = .ok frame) (hl : body.length ≤ Frame.maxLength)
    (hreads : c.stream.reads = Stream.pieces bs ++ .silence :: events)
    (h : bs.flatten <+: stringBytes body) (hpart : bs.flatten ≠ stringBytes body) :
    ((request r).perform c).1 = .error .timeout := by
  obtain ⟨stream, hsent, -, hsentreads, -⟩ := perform_send_smooth hs hc.outbox hr
  have ready : Ready { c with stream } := ⟨hc.outbox, hc.ended, hc.failed⟩
  obtain ⟨waiting, hwaiting, hempty, hnext⟩ := next_of_prefix hl ready
    (by rw [hb]; exact List.nil_prefix) (by rw [hb]; exact (stringBytes_ne_nil body).symm)
  have empty : waiting.inbox.bytes = [] := hempty.trans hb
  have silence := readOn_of_prefix hl events hwaiting (by rwa [empty, List.nil_append])
    (by rwa [empty, List.nil_append])
  rw [perform_request, hsent]
  dsimp only
  rw [hnext, hsentreads, hreads]
  generalize (readOn (Stream.pieces bs ++ .silence :: events)).perform waiting = out at silence
  obtain ⟨result, later⟩ := out
  obtain rfl : result = _ := silence
  rfl

/-- A request that cannot be sent changes nothing. -/
theorem request_of_fault {r : Request} {e : AgentError} {c : BufferedClient} (ho : c.outbox = [])
    (hr : Frame.encode r = .error e) : (request r).perform c = (.error e, c) := by
  rw [perform_request, perform_send_error ho hr]

/-! ### On any stream -/

section Frame

variable {body : Bytes} (hl : body.length ≤ Frame.maxLength)
include hl

/-- Where no more than the rest of a frame comes in before a silence, a client that has a front of
the frame gets its message with nothing left to be read, or the stream has failed. -/
theorem readOn_of_heard {events : List ReadEvent} {c : BufferedClient} (hc : c.Ready)
    (hsilence : .silence ∈ events) (hpart : c.inbox.bytes ≠ stringBytes body)
    (h : c.inbox.bytes ++ Stream.heard events <+: stringBytes body) :
    (c.inbox.bytes ++ Stream.heard events = stringBytes body ∧
        ∃ later, Stream.heard later = [] ∧ Got body [] later ((readOn events).perform c)) ∨
      ∃ e, ((readOn events).perform c).1 = .error e ∧ e.blamesStream = true := by
  induction events generalizing c with
  | nil => exact absurd hsilence List.not_mem_nil
  | cons event events ih =>
    cases event with
    | silence => exact .inr ⟨.timeout, rfl, rfl⟩
    | fail e => exact .inr ⟨.io e, rfl, rfl⟩
    | data b =>
      have hsilence := (List.mem_cons.1 hsilence).resolve_left nofun
      have hfront := (List.prefix_append _ _).trans h
      rw [Stream.heard_data, ← List.append_assoc] at h ⊢
      rw [perform_readOn_data]
      by_cases hb : c.inbox.bytes ++ b = stringBytes body
      · have nothing : Stream.heard events = [] := by
          rw [hb] at h
          exact List.append_right_eq_self.1 (h.eq_of_length_le (by simp))
        have got := got_of_readData hl events hc (Nat.le_refl _) (by rw [hb, List.append_nil])
          hfront hpart
        rw [got.stands, nothing, List.append_nil]
        exact .inl ⟨hb, events, nothing, got⟩
      · obtain ⟨next, hnext, hbytes, hread⟩ := readData_of_prefix hl events hc (Nat.le_refl _)
          ((List.prefix_append _ _).trans h) hb
        rw [← hbytes] at h hb ⊢
        rw [hread]
        exact ih hnext hsilence hb h

/-- The same of a client that has nothing yet and looks for a message. -/
theorem next_of_heard {c : BufferedClient} (hc : c.Ready) (hb : c.inbox.bytes = [])
    (hsilence : .silence ∈ c.stream.reads)
    (h : Stream.heard c.stream.reads <+: stringBytes body) :
    (Stream.heard c.stream.reads = stringBytes body ∧
        ∃ later, Stream.heard later = [] ∧ Got body [] later (next.perform c)) ∨
      ∃ e, (next.perform c).1 = .error e ∧ e.blamesStream = true := by
  obtain ⟨waiting, hwaiting, hbytes, hnext⟩ := next_of_prefix hl hc
    (by rw [hb]; exact List.nil_prefix) (by rw [hb]; exact (stringBytes_ne_nil body).symm)
  have empty : waiting.inbox.bytes = [] := hbytes.trans hb
  have found := readOn_of_heard hl hwaiting hsilence
    (by rw [empty]; exact (stringBytes_ne_nil body).symm) (by rwa [empty, List.nil_append])
  rwa [empty, List.nil_append, ← hnext] at found

end Frame

/-- Where no more than the frame of an answer comes in before a silence, a request gets that answer
with nothing left to be read, or the stream has failed. The client is ready for the next request
unless the answer does not decode. -/
theorem request_of_heard {r : Request} {frame body : Bytes} {c : BufferedClient} (hc : c.Ready)
    (hb : c.inbox.bytes = []) (hr : Frame.encode r = .ok frame)
    (hl : body.length ≤ Frame.maxLength) (hsilence : .silence ∈ c.stream.reads)
    (h : Stream.heard c.stream.reads <+: stringBytes body) :
    (((request r).perform c).1 =
          ((Response.decode body).mapError .protocol).bind (·.outcome r) ∧
        Stream.heard c.stream.reads = stringBytes body ∧
        ((request r).perform c).2.inbox.bytes = [] ∧
        Stream.heard ((request r).perform c).2.stream.reads = [] ∧
        ∀ a, Response.decode body = .ok a → ((request r).perform c).2.Ready) ∨
      ∃ e, ((request r).perform c).1 = .error e ∧ e.blamesStream = true := by
  rw [perform_request]
  obtain ⟨stream, hreads, hsent⟩ | ⟨e, later, hsent, hblames⟩ := perform_send_or_fails hc.outbox hr
  · rw [hsent]
    dsimp only
    rw [← hreads] at hsilence h ⊢
    have ready : Ready { c with stream } := ⟨hc.outbox, hc.ended, hc.failed⟩
    have found := next_of_heard hl ready hb hsilence h
    generalize next.perform { c with stream } = out at found
    obtain ⟨result, next⟩ := out
    obtain ⟨hwhole, later, hlater, ⟨hresult, ⟨left, hleft, hnextreads⟩, hready⟩⟩ |
      ⟨e, he, hblames⟩ := found
    · obtain rfl : result = _ := hresult
      obtain ⟨hinbox, hnone⟩ := List.append_eq_nil_iff.1 hleft
      have unheard : Stream.heard next.stream.reads = [] := by
        rw [hnextreads, Stream.heard_append, Stream.heard_pieces, hnone, hlater, List.append_nil]
      refine .inl ?_
      cases hdecode : Response.decode body with
      | error e => exact ⟨rfl, hwhole, hinbox, unheard, nofun⟩
      | ok a => exact ⟨rfl, hwhole, hinbox, unheard, fun _ _ => (hready a hdecode).1⟩
    · obtain rfl : result = _ := he
      exact .inr ⟨e, rfl, hblames⟩
  · rw [hsent]
    exact .inr ⟨e, rfl, hblames⟩

end BufferedClient

end SshKeyring
