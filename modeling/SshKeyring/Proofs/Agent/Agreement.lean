import SshKeyring.Proofs.Agent.Turns
import SshKeyring.Proofs.Key.Container

/-! The two clients side by side. Each reads frames in its own way, one of them no further than it
has to, the other as far ahead as it has room for. On streams that bring the same frames, cut
anywhere, they get the same results until a message comes that does not decode, and whatever they
get they write the same. -/

namespace SshKeyring

open Wire

/-! ### What is written -/

/-- The bytes by which a request goes out: its frame, or none if it cannot be sent. -/
def Request.framed (r : Request) : Bytes :=
  match Frame.encode r with
  | .ok frame => frame
  | .error _ => []

/-- A message that is written down, but has too many bytes for the count of a frame. -/
def Request.Oversized (r : Request) : Prop :=
  ∃ body, r.encode = .ok body ∧ countLimit ≤ body.length

theorem Request.framed_of_frame {r : Request} {frame : Bytes} (h : Frame.encode r = .ok frame) :
    r.framed = frame := by
  rw [framed, h]

theorem Request.framed_of_not_sendable {r : Request} (h : ¬ r.Sendable) : r.framed = [] := by
  obtain ⟨fault, hr⟩ := Frame.encode_of_not_sendable h
  rw [framed, hr]

/-- A client that, as long as it is idle, writes down the frame of each request, writes down the
frames of all. -/
theorem taken_performAll {σ : Type} {request : Request → Steps σ AgentError Outcome}
    {Idle : σ → Prop} (taken : σ → Bytes)
    (step : ∀ r s, Idle s → Idle ((request r).perform s).2 ∧
      taken ((request r).perform s).2 = taken s ++ r.framed)
    (requests : List Request) {s : σ} (hs : Idle s) :
    taken (Steps.performAll (requests.map request) s).2 =
      taken s ++ requests.flatMap Request.framed := by
  induction requests generalizing s with
  | nil => simp [Steps.performAll]
  | cons r requests ih =>
    obtain ⟨later, written⟩ := step r s hs
    rw [List.map_cons, Steps.performAll, List.flatMap_cons, ← List.append_assoc, ← written]
    exact ih later

namespace Client

/-- Nothing waits to be sent, and nothing keeps it from being sent. -/
structure Idle (c : Cursor) : Prop where
  pending : c.pending = []
  smooth : c.stream.Smooth

theorem taken_request (r : Request) (c : Cursor) (hc : Idle c) :
    Idle ((request r).perform c).2 ∧
      ((request r).perform c).2.stream.taken = c.stream.taken ++ r.framed := by
  obtain ⟨stream, pending⟩ := c
  obtain ⟨rfl, smooth⟩ := hc
  by_cases hsend : r.Sendable
  · obtain ⟨body, hbody, hl⟩ := hsend
    obtain ⟨later, hsent, hsmooth, -, htaken⟩ := perform_send_smooth smooth hbody hl
    obtain ⟨reads, hreceive⟩ := receive_snd { stream := later }
    rw [Request.framed_of_frame (Frame.encode_eq_ok_iff.2 ⟨body, hbody, hl, rfl⟩),
      perform_request, hsent]
    dsimp only
    rw [hreceive]
    exact ⟨⟨rfl, hsmooth.writes, hsmooth.flushes⟩, htaken⟩
  · obtain ⟨fault, hx⟩ := request_of_not_sendable hsend stream
    rw [hx, Request.framed_of_not_sendable hsend]
    exact ⟨⟨rfl, smooth⟩, (List.append_nil _).symm⟩

end Client

namespace BufferedClient

structure Idle (c : BufferedClient) : Prop where
  outbox : c.outbox = []
  smooth : c.stream.Smooth

theorem taken_request (r : Request) (c : BufferedClient) (hc : Idle c) :
    Idle ((request r).perform c).2 ∧
      ((request r).perform c).2.stream.taken = c.stream.taken ++ r.framed := by
  cases hr : Frame.encode r with
  | error e =>
    rw [request_of_fault hc.outbox hr, Request.framed, hr]
    exact ⟨hc, (List.append_nil _).symm⟩
  | ok frame =>
    obtain ⟨stream, hsent, hsmooth, -, htaken⟩ := perform_send_smooth hc.smooth hc.outbox hr
    have later : ((request r).perform c).2 = (next.perform { c with stream }).2 := by
      rw [perform_request, hsent]
      dsimp only
      rcases next.perform { c with stream } with ⟨_ | _ | _, _⟩ <;> rfl
    rw [later, Request.framed_of_frame hr, ← htaken]
    exact ⟨⟨(outbox_next { c with stream }).trans hc.outbox, smooth_next hsmooth⟩,
      taken_next { c with stream }⟩

end BufferedClient

/-! ### What is read -/

/-- The number of requests that go out, and so get a reply. -/
def asked (requests : List Request) : Nat := requests.countP fun r => r.Sendable

/-- Behind what is held of it already, a stream has the frames of replies in its data, cut
anywhere, before anything else can come. -/
def Stream.Brings (held : Bytes) (replies : List Bytes) (s : Stream) : Prop :=
  ∃ bs rest events, held ++ bs.flatten = replies.flatMap stringBytes ++ rest ∧
    s.reads = pieces bs ++ events

namespace Client

/-- Nothing waits to be sent, and the frames of replies are to be read. -/
structure Expects (replies : List Bytes) (c : Cursor) : Prop extends Idle c where
  brings : c.stream.Brings [] replies

/-- The next reply is the answer to a request that goes out, and the others are left if it
decodes. -/
theorem request_of_expects {r : Request} {body : Bytes} {replies : List Bytes} {c : Cursor}
    (hc : Expects (body :: replies) c) (hsend : r.Sendable) (hl : body.length ≤ Frame.maxLength) :
    ∃ later, Expects replies later ∧ (request r).perform c =
      (((Response.decode body).mapError .protocol).bind (·.outcome r), later) := by
  obtain ⟨stream, pending⟩ := c
  obtain ⟨⟨rfl, smooth⟩, bs, rest, events, hbs, hreads⟩ := hc
  obtain ⟨message, hmessage, hm⟩ := hsend
  rw [List.nil_append, List.flatMap_cons, List.append_assoc] at hbs
  obtain ⟨later, hsmooth, ⟨left, hleft, hleftreads⟩, hx⟩ :=
    request_of_pieces smooth hmessage hm hl hreads hbs
  exact ⟨{ stream := later }, ⟨⟨rfl, hsmooth⟩, left, rest, events, hleft, hleftreads⟩, hx⟩

end Client

namespace BufferedClient

/-- Nothing has gone wrong, and the frames of replies are to be read or in the inbox. -/
structure Expects (replies : List Bytes) (c : BufferedClient) : Prop extends Ready c where
  smooth : c.stream.Smooth
  unread : c.readable = false → c.inbox.bytes = []
  brings : c.stream.Brings c.inbox.bytes replies

theorem request_of_expects {r : Request} {body : Bytes} {replies : List Bytes} {c : BufferedClient}
    (hc : Expects (body :: replies) c) (hsend : r.Sendable) (hl : body.length ≤ Frame.maxLength) :
    ∃ later, ((∃ a, Response.decode body = .ok a) → Expects replies later) ∧
      (request r).perform c =
        (((Response.decode body).mapError .protocol).bind (·.outcome r), later) := by
  obtain ⟨ready, smooth, unread, bs, rest, events, hbs, hreads⟩ := hc
  obtain ⟨frame, hframe⟩ := Frame.encode_of_sendable hsend
  rw [List.flatMap_cons, List.append_assoc] at hbs
  obtain ⟨later, hsmooth, hready, ⟨left, hleft, hleftreads⟩, hx⟩ :=
    request_of_pieces ready smooth unread hframe hl hreads hbs
  refine ⟨later, fun ⟨a, ha⟩ => ?_, hx⟩
  obtain ⟨laterReady, hreadable⟩ := hready a ha
  exact ⟨laterReady, hsmooth, by simp [hreadable], left, rest, events, hleft, hleftreads⟩

end BufferedClient

/-- Results of the two clients for a request that the given reply is there for. They are the same,
that which the reply means if the request goes out; but each client has a fault of its own for a
message that has too many bytes for a frame. -/
structure Alike (r : Request) (reply : Option Bytes) (one other : Except AgentError Outcome) :
    Prop where
  answered : r.Sendable → ∃ body, reply = some body ∧
    one = ((Response.decode body).mapError .protocol).bind (·.outcome r)
  same : ¬ r.Oversized → one = other
  oversized : r.Oversized →
    one = .error (.protocol .unexpectedResponse) ∧ other = .error (.protocol (.wire .overflow))

theorem not_oversized_of_sendable {r : Request} (h : r.Sendable) : ¬ r.Oversized := by
  obtain ⟨body, hbody, hl⟩ := h
  rintro ⟨_, hbody', hlong⟩
  cases hbody.symm.trans hbody'
  exact Nat.not_lt.2 hlong hl

/-- A request that cannot be sent leaves both clients as they are. -/
theorem alike_of_not_sendable {r : Request} {c : Cursor} {d : BufferedClient} (hc : c.pending = [])
    (hd : d.outbox = []) (h : ¬ r.Sendable) (reply : Option Bytes) :
    ∃ one other, (Client.request r).perform c = (.error one, c) ∧
      (BufferedClient.request r).perform d = (.error other, d) ∧
      Alike r reply (.error one) (.error other) := by
  obtain ⟨stream, pending⟩ := c
  obtain rfl : pending = [] := hc
  rw [Client.perform_request, Client.perform_send r rfl]
  cases hr : r.encode with
  | error e =>
    have hframe : Frame.encode r = .error (.protocol (.wire e)) := by
      rw [Frame.encode, hr]
      rfl
    refine ⟨_, _, rfl, BufferedClient.request_of_fault hd hframe, fun hsend => absurd hsend h,
      fun _ => rfl, ?_⟩
    rintro ⟨body, hbody, -⟩
    rw [hr] at hbody
    cases hbody
  | ok body =>
    have hlong : ¬ body.length < countLimit := fun hl => h ⟨body, hr, hl⟩
    have hframe : Frame.encode r = .error (.protocol (.wire .overflow)) := by
      rw [Frame.encode, hr]
      change (Frame.wrap body).mapError _ = _
      rw [Frame.wrap, putString_of_long hlong]
      rfl
    have oversized : r.Oversized := ⟨body, hr, Nat.le_of_not_lt hlong⟩
    dsimp only
    rw [if_neg hlong]
    exact ⟨_, _, rfl, BufferedClient.request_of_fault hd hframe, fun hsend => absurd hsend h,
      fun hnot => absurd oversized hnot, fun _ => ⟨rfl, rfl⟩⟩

/-- As long as the replies before the one that a request gets all decode, the clients agree on
the request's result. -/
theorem alike_of_expects {requests : List Request} {replies : List Bytes} {c : Cursor}
    {d : BufferedClient} (hc : Client.Expects replies c) (hd : BufferedClient.Expects replies d)
    (hl : ∀ body ∈ replies, body.length ≤ Frame.maxLength)
    (hcount : asked requests ≤ replies.length) {n : Nat} {r : Request} (hr : requests[n]? = some r)
    (hdecode : ∀ body ∈ replies.take (asked (requests.take n)), ∃ a, Response.decode body = .ok a) :
    ∃ one other, (Steps.performAll (requests.map Client.request) c).1[n]? = some one ∧
      (Steps.performAll (requests.map BufferedClient.request) d).1[n]? = some other ∧
      Alike r replies[asked (requests.take n)]? one other := by
  induction requests generalizing replies c d n with
  | nil => cases hr
  | cons first requests ih =>
    simp only [List.map_cons, Steps.performAll]
    by_cases hsend : first.Sendable
    · obtain ⟨body, replies, rfl⟩ : ∃ body later, replies = body :: later := by
        cases replies with
        | nil => simp [asked, hsend] at hcount
        | cons body replies => exact ⟨body, replies, rfl⟩
      obtain ⟨hbody, hl⟩ := List.forall_mem_cons.1 hl
      obtain ⟨c', hc', hone⟩ := Client.request_of_expects hc hsend hbody
      obtain ⟨d', hd', hother⟩ := BufferedClient.request_of_expects hd hsend hbody
      rw [hone, hother]
      cases n with
      | zero =>
        cases hr
        exact ⟨_, _, rfl, rfl, fun _ => ⟨body, rfl, rfl⟩, fun _ => rfl,
          fun h => absurd h (not_oversized_of_sendable hsend)⟩
      | succ n =>
        have hasked : asked ((first :: requests).take (n + 1)) = asked (requests.take n) + 1 := by
          simp [asked, hsend]
        rw [hasked, List.take_succ_cons, List.forall_mem_cons] at hdecode
        rw [hasked, List.getElem?_cons_succ]
        have hrest : asked requests ≤ replies.length := by
          simpa [asked, hsend] using hcount
        exact ih hc' (hd' hdecode.1) hl hrest hr hdecode.2
    · obtain ⟨one, other, hone, hother, halike⟩ :=
        alike_of_not_sendable hc.pending hd.outbox hsend replies[0]?
      rw [hone, hother]
      cases n with
      | zero =>
        cases hr
        exact ⟨_, _, rfl, rfl, halike⟩
      | succ n =>
        have hasked : asked ((first :: requests).take (n + 1)) = asked (requests.take n) := by
          simp [asked, hsend]
        rw [hasked] at hdecode ⊢
        exact ih hc hd hl (by simpa [asked, hsend] using hcount) hr hdecode

/-- Where the frames of the replies come in whatever chunks, and writes take as little as they
please, the two clients get the same results for their requests, those that their replies mean, up
to and including the first whose reply does not decode. A message too long for a frame is refused by
both, by each with a fault of its own. They write the same bytes, whatever the replies are. -/
theorem clients_agree {blocking buffered : Stream} {replies : List Bytes} (requests : List Request)
    (hblocking : blocking.Smooth) (hbuffered : buffered.Smooth)
    (hone : blocking.Brings [] replies) (hother : buffered.Brings [] replies)
    (hl : ∀ body ∈ replies, body.length ≤ Frame.maxLength)
    (hcount : asked requests ≤ replies.length) :
    (∀ n r, requests[n]? = some r →
      (∀ body ∈ replies.take (asked (requests.take n)), ∃ a, Response.decode body = .ok a) →
      ∃ one other,
        (Steps.performAll (requests.map Client.request) { stream := blocking }).1[n]? = some one ∧
        (Steps.performAll (requests.map BufferedClient.request) { stream := buffered }).1[n]? =
          some other ∧
        Alike r replies[asked (requests.take n)]? one other) ∧
    (Steps.performAll (requests.map Client.request) { stream := blocking }).2.stream.taken =
      blocking.taken ++ requests.flatMap Request.framed ∧
    (Steps.performAll (requests.map BufferedClient.request) { stream := buffered }).2.stream.taken =
      buffered.taken ++ requests.flatMap Request.framed := by
  have one : Client.Expects replies { stream := blocking } := ⟨⟨rfl, hblocking⟩, hone⟩
  have other : BufferedClient.Expects replies { stream := buffered } :=
    ⟨⟨rfl, rfl, rfl⟩, hbuffered, fun _ => rfl, hother⟩
  have idle : BufferedClient.Idle { stream := buffered } := ⟨rfl, hbuffered⟩
  exact ⟨fun n r hr hdecode => alike_of_expects one other hl hcount hr hdecode,
    taken_performAll (·.stream.taken) Client.taken_request requests one.toIdle,
    taken_performAll (·.stream.taken) BufferedClient.taken_request requests idle⟩

/-- A grant, a message of no kind that a client knows and a refusal, cut inside a count, inside a
frame and between frames. The first writes take a byte or two. -/
def hesitant : Stream where
  reads := [.data [0, 0], .data [], .data [0, 1, 6, 0, 0], .data [0, 1], .data [99, 0, 0, 0, 1, 5]]
  writes := [.accept 2, .accept 1]

/-- The same messages, all at once. -/
def prompt : Stream where
  reads := [.data [0, 0, 0, 1, 6, 0, 0, 0, 1, 99, 0, 0, 0, 1, 5]]

theorem smooth_prompt : prompt.Smooth := ⟨by simp [prompt], by simp [prompt]⟩

theorem brings_prompt : prompt.Brings [] [[6], [99], [5]] :=
  ⟨[[0, 0, 0, 1, 6, 0, 0, 0, 1, 99, 0, 0, 0, 1, 5]], [], [], by decide, rfl⟩

def errand : List Request := [.removeAllIdentities, .requestIdentities, .removeAllIdentities]

/-- Both have no use for the message of no known kind, and what they write is the same, also after
it. -/
theorem hesitant_agrees_prompt :
    hesitant.Smooth ∧ prompt.Smooth ∧
      (Steps.performAll (errand.map Client.request) { stream := hesitant }).1[1]? =
        some (.error (.protocol (.unsupportedCommand 99))) ∧
      (Steps.performAll (errand.map BufferedClient.request) { stream := prompt }).1[1]? =
        some (.error (.protocol (.unsupportedCommand 99))) ∧
      (Steps.performAll (errand.map Client.request) { stream := hesitant }).2.stream.taken =
        (Steps.performAll (errand.map BufferedClient.request)
          { stream := prompt }).2.stream.taken := by
  have smooth : hesitant.Smooth := ⟨by simp [hesitant], by simp [hesitant]⟩
  have brings : hesitant.Brings [] [[6], [99], [5]] :=
    ⟨[[0, 0], [], [0, 1, 6, 0, 0], [0, 1], [99, 0, 0, 0, 1, 5]], [], [], by decide, by decide⟩
  obtain ⟨results, written, written'⟩ := clients_agree errand smooth smooth_prompt brings
    brings_prompt (by decide) (by decide)
  have first : ([[6], [99], [5]] : List Bytes).take (asked (errand.take 1)) = [[6]] := by decide
  have second : ([[6], [99], [5]] : List Bytes)[asked (errand.take 1)]? = some [99] := by decide
  have sendable : Request.requestIdentities.Sendable := by decide
  obtain ⟨one, other, hone, hother, alike⟩ := results 1 .requestIdentities rfl fun body hbody => by
    rw [first, List.mem_singleton] at hbody
    exact ⟨.success, by rw [hbody]; rfl⟩
  obtain ⟨body, hbody, rfl⟩ := alike.answered sendable
  obtain rfl : [99] = body := Option.some.inj (second.symm.trans hbody)
  rw [← alike.same (not_oversized_of_sendable sendable)] at hother
  exact ⟨smooth, smooth_prompt, hone, hother, written.trans written'.symm⟩

/-- The removal of a key with a single part of so many bytes. -/
def bulky (n : Nat) : Request := .removeIdentity { type := .ed25519, parts := [List.replicate n 0] }

/-- A key whose blob still fits the count of a string may make a message that no longer does. -/
theorem oversized_bulky {n : Nat} (hlong : countLimit ≤ n + 24) (hblob : n + 19 < countLimit) :
    (bulky n).Oversized := by
  let key : PublicKey := { type := .ed25519, parts := [List.replicate n 0] }
  have type : KeyType.ed25519.wire.length = 15 := by decide
  have blob : key.wire.length = n + 19 := by
    rw [PublicKey.wire, List.length_append, type]
    simp [key, length_stringBytes, stringSize]
    omega
  have counted : key.encodeCounted = .ok (stringBytes key.wire) := by
    refine Container.encodeCounted_eq_ok_iff.2 ⟨blob ▸ hblob, fun b hb => ?_, rfl⟩
    obtain rfl := List.mem_singleton.1 hb
    rw [List.length_replicate]
    omega
  refine ⟨18 :: stringBytes key.wire, bind_eq_ok.2 ⟨_, counted, rfl⟩, ?_⟩
  rw [List.length_cons, length_stringBytes, stringSize, blob]
  omega

/-- A stream that takes nothing in its first write, and brings two grants. -/
def unwilling : Stream where
  reads := [.data [0, 0, 0, 1, 6, 0, 0, 0, 1, 6]]
  writes := [.accept 0]

def twice : List Request := [.removeAllIdentities, .removeAllIdentities]

/-- For a message that has too many bytes for the count of a frame each client has a fault of its
own. Where a write takes nothing, the clients have different faults as well, and only one of them
sends with its next request what it could not send before. -/
theorem clients_disagree :
    (prompt.Smooth ∧ prompt.Brings [] [[6], [99], [5]] ∧
      (Steps.performAll ([bulky 0xffffffec].map Client.request) { stream := prompt }).1 =
        [.error (.protocol .unexpectedResponse)] ∧
      (Steps.performAll ([bulky 0xffffffec].map BufferedClient.request) { stream := prompt }).1 =
        [.error (.protocol (.wire .overflow))]) ∧
    unwilling.Brings [] [[6], [6]] ∧
      (Steps.performAll (twice.map Client.request) { stream := unwilling }).1 =
        [.error (.io Cursor.policy.nothingTaken), .ok .done] ∧
      (Steps.performAll (twice.map BufferedClient.request) { stream := unwilling }).1 =
        [.error (.io BufferedClient.policy.nothingTaken), .ok .done] ∧
      (Steps.performAll (twice.map Client.request) { stream := unwilling }).2.stream.taken =
        [0, 0, 0, 1, 19] ∧
      (Steps.performAll (twice.map BufferedClient.request) { stream := unwilling }).2.stream.taken =
        [0, 0, 0, 1, 19, 0, 0, 0, 1, 19] := by
  have oversized : (bulky 0xffffffec).Oversized := oversized_bulky (by decide) (by decide)
  have unsendable : ¬ (bulky 0xffffffec).Sendable := fun h => not_oversized_of_sendable h oversized
  obtain ⟨_, _, hone, hother, alike⟩ := alike_of_not_sendable (c := { stream := prompt })
    (d := { stream := prompt }) rfl rfl unsendable none
  obtain ⟨one, other⟩ := alike.oversized oversized
  have brings : unwilling.Brings [] [[6], [6]] :=
    ⟨[[0, 0, 0, 1, 6, 0, 0, 0, 1, 6]], [], [], by decide, rfl⟩
  refine ⟨⟨smooth_prompt, brings_prompt, ?_, ?_⟩, brings, ?_⟩
  · rw [List.map_singleton, Steps.performAll, hone, one]
    rfl
  · rw [List.map_singleton, Steps.performAll, hother, other]
    rfl
  · decide +kernel

end SshKeyring
