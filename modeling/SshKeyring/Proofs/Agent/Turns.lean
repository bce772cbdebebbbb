import Mathlib.Data.List.Infix
import SshKeyring.Proofs.Agent.Buffered
import SshKeyring.Proofs.Agent.Delivery

/-! Requests that take turns on one connection, and whose answer each of them gets. Answers bear no
number: a client takes the next frame for the answer to its last request. On any stream, as long as
no failure of it has kept the client from an answer, that is the frame that its request was answered
with. After such a failure, be it that nothing came for too long, the client is out of step with its
peer, and what it gets then may be the answer to an earlier request. -/

namespace SshKeyring

open Wire

/-- A request that can be put into a frame. -/
def Request.Sendable (r : Request) : Prop :=
  ∃ body, r.encode = .ok body ∧ body.length < countLimit

instance (r : Request) : Decidable r.Sendable :=
  match h : r.encode with
  | .ok body => decidable_of_iff (body.length < countLimit) (by simp [Request.Sendable, h])
  | .error _ => isFalse (by simp [Request.Sendable, h])

/-- The stream has kept a client from an answer. -/
def gaveUp : Except AgentError Outcome → Bool
  | .ok _ => false
  | .error e => e.blamesStream

/-- A request, the message that the peer answers it with if it gets it, and what reads meet until
the client has an answer or gives up. A silence lasts until the next turn. -/
structure Turn where
  request : Request
  answer : Bytes
  arrivals : List ReadEvent := []

namespace Turn

/-- What the peer says in answer. -/
def frame (t : Turn) : Bytes := if t.request.Sendable then stringBytes t.answer else []

/-- What the answer means to the request. -/
def outcome (t : Turn) : Except AgentError Outcome :=
  ((Response.decode t.answer).mapError .protocol).bind (·.outcome t.request)

/-- Nothing but data comes in. -/
def Clear (t : Turn) : Prop := ∀ event ∈ t.arrivals, ∃ b, event = .data b

/-- No read fails as if the stream had ended. -/
def Lasts (t : Turn) : Prop := ∀ event ∈ t.arrivals, event.claimsEnd = false

instance (t : Turn) : Decidable t.Lasts :=
  inferInstanceAs (Decidable (∀ event ∈ t.arrivals, event.claimsEnd = false))

/-- What is due to a client: a fault if its request cannot be sent, else what its own answer means,
which is there in full then, or a failure of the stream. On a stream that works it is what the
answer means if that is there in full, and else that the client waited in vain. -/
structure Due (t : Turn) (works inFull : Prop) (result : Except AgentError Outcome) : Prop where
  unsendable : ¬ t.request.Sendable → ∃ fault, result = .error (.protocol fault)
  own : t.request.Sendable → result = t.outcome ∧ inFull ∨ gaveUp result = true
  answered : works → t.request.Sendable → inFull → result = t.outcome
  unanswered : works → t.request.Sendable → ¬ inFull → result = .error .timeout

end Turn

/-- All data that has come in. -/
def arrived (turns : List Turn) : Bytes := turns.flatMap (Stream.heard ·.arrivals)

/-- All that the peer has said. -/
def said (turns : List Turn) : Bytes := turns.flatMap (·.frame)

/-- The peer answers every request that it gets with one frame, in the order of the requests and no
sooner than it gets them, with a message that is not too long. -/
structure Answered (turns : List Turn) : Prop where
  short : ∀ t ∈ turns, t.answer.length ≤ Frame.maxLength
  order : ∀ front, front <+: turns → arrived front <+: said front

instance (turns : List Turn) : Decidable (Answered turns) :=
  decidable_of_iff ((∀ t ∈ turns, t.answer.length ≤ Frame.maxLength) ∧
      ∀ front ∈ turns.inits, arrived front <+: said front)
    ⟨fun h => ⟨h.1, fun front hfront => h.2 front ((List.mem_inits front turns).2 hfront)⟩,
      fun h => ⟨h.short, fun front hfront => h.order front ((List.mem_inits front turns).1 hfront)⟩⟩

/-- Writes and flushes work, and so do reads in all turns. -/
structure Works (stream : Stream) (turns : List Turn) : Prop where
  smooth : stream.Smooth
  clear : ∀ t ∈ turns, t.Clear

/-- More comes in, and then silence. An earlier silence is over. -/
def Stream.hear (s : Stream) (arrivals : List ReadEvent) : Stream :=
  { s with reads := s.reads.filter (· ≠ .silence) ++ arrivals ++ [.silence] }

def Client.turn (t : Turn) : Client.Call Outcome := do
  modify fun c => { c with stream := c.stream.hear t.arrivals }
  request t.request

def BufferedClient.turn (t : Turn) : BufferedClient.Call Outcome := do
  modify fun c => { c with stream := c.stream.hear t.arrivals }
  request t.request

/-! ### Clients in step -/

theorem Turn.frame_of_not_sendable {t : Turn} (h : ¬ t.request.Sendable) : t.frame = [] := if_neg h

theorem Turn.frame_of_sendable {t : Turn} (h : t.request.Sendable) :
    t.frame = stringBytes t.answer := if_pos h

namespace Answered

variable {t : Turn} {turns earlier later : List Turn}

theorem front (h : Answered (earlier ++ later)) : Answered earlier where
  short t ht := h.short t (List.mem_append_left later ht)
  order front hfront := h.order front (hfront.trans (List.prefix_append _ _))

/-- Once all that was said in earlier turns is there, later ones go on as if those had not been. -/
theorem back (h : Answered (earlier ++ later)) (hfull : arrived earlier = said earlier) :
    Answered later where
  short t ht := h.short t (List.mem_append_right earlier ht)
  order front hfront := by
    have both := h.order (earlier ++ front) ((List.prefix_append_right_inj _).2 hfront)
    rw [arrived, said, List.flatMap_append, List.flatMap_append, ← arrived, ← said, hfull] at both
    exact (List.prefix_append_right_inj _).1 both

theorem head (h : Answered (t :: turns)) : Answered [t] := @front [t] turns h

theorem tail (h : Answered (t :: turns)) (hfull : Stream.heard t.arrivals = t.frame) :
    Answered turns := @back [t] turns h (by simpa [arrived, said] using hfull)

theorem heard_prefix (h : Answered [t]) : Stream.heard t.arrivals <+: t.frame := by
  have first := h.order [t] (List.prefix_refl _)
  simpa [arrived, said] using first

end Answered

theorem Turn.Due.fault {t : Turn} (h : ¬ t.request.Sendable) (works inFull : Prop)
    (fault : MessageError) : t.Due works inFull (.error (.protocol fault)) :=
  ⟨fun _ => ⟨fault, rfl⟩, fun hsend => absurd hsend h, fun _ hsend => absurd hsend h,
    fun _ hsend => absurd hsend h⟩

/-- What is due is settled by what a turn gave, whatever else is known of it if no failure of the
stream has ended it. -/
theorem Turn.Due.of_found {t : Turn} {works inFull kept : Prop} {result : Except AgentError Outcome}
    (h : t.request.Sendable)
    (found : (result = t.outcome ∧ inFull ∧ kept) ∨ ∃ e, result = .error e ∧ e.blamesStream = true)
    (answered : works → inFull → result = t.outcome)
    (unanswered : works → ¬ inFull → result = .error .timeout) :
    t.Due works inFull result ∧ (gaveUp result = false → inFull ∧ kept) := by
  obtain ⟨hown, hfull, hkept⟩ | ⟨e, rfl, hblames⟩ := found
  · exact ⟨⟨fun hnot => absurd h hnot, fun _ => .inl ⟨hown, hfull⟩, fun hworks _ => answered hworks,
      fun hworks _ => unanswered hworks⟩, fun _ => ⟨hfull, hkept⟩⟩
  · exact ⟨⟨fun hnot => absurd h hnot, fun _ => .inr hblames, fun hworks _ => answered hworks,
      fun hworks _ => unanswered hworks⟩, fun hresult => by cases hblames.symm.trans hresult⟩

/-- A turn that no failure of the stream has ended has heard all that was said in it. -/
theorem Turn.Due.heard_eq {t : Turn} {works : Prop} {result : Except AgentError Outcome}
    (h : t.Due works (Stream.heard t.arrivals = t.frame) result)
    (hfront : Stream.heard t.arrivals <+: t.frame) (hresult : gaveUp result = false) :
    Stream.heard t.arrivals = t.frame := by
  by_cases hsend : t.request.Sendable
  · obtain ⟨-, hfull⟩ | hgave := h.own hsend
    · exact hfull
    · rw [hgave] at hresult
      cases hresult
  · rw [frame_of_not_sendable hsend] at hfront ⊢
    exact List.prefix_nil.1 hfront

section InStep

variable {σ : Type} {turn : Turn → Steps σ AgentError Outcome} {InStep : σ → Prop} {works : Prop}
  {Fits Steady : Turn → Prop}

/-- What a fitting turn of a client in step gives, and when it leaves the client in step. -/
def KeepsStep (turn : Turn → Steps σ AgentError Outcome) (InStep : σ → Prop) (works : Prop)
    (Fits Steady : Turn → Prop) : Prop :=
  ∀ t s, InStep s → Answered [t] → Fits t →
    t.Due works (Stream.heard t.arrivals = t.frame) ((turn t).perform s).1 ∧
      (gaveUp ((turn t).perform s).1 = false → Steady t → InStep ((turn t).perform s).2)

/-- As long as no failure of the stream ends a turn, a client stays in step and has heard all that
was said. -/
theorem inStep_performAll (step : KeepsStep turn InStep works Fits Steady) {turns : List Turn}
    {s : σ} (hs : InStep s) (h : Answered turns) (hfits : ∀ t ∈ turns, Fits t)
    (hsteady : ∀ t ∈ turns, Steady t)
    (hresults : ∀ result ∈ (Steps.performAll (turns.map turn) s).1, gaveUp result = false) :
    InStep (Steps.performAll (turns.map turn) s).2 ∧ arrived turns = said turns := by
  induction turns generalizing s with
  | nil => exact ⟨hs, rfl⟩
  | cons t turns ih =>
    rw [List.map_cons, Steps.performAll] at hresults ⊢
    obtain ⟨hresult, hresults⟩ := List.forall_mem_cons.1 hresults
    obtain ⟨hfit, hfits⟩ := List.forall_mem_cons.1 hfits
    obtain ⟨hsteady, hsteadies⟩ := List.forall_mem_cons.1 hsteady
    obtain ⟨due, stays⟩ := step t s hs h.head hfit
    have hfull := due.heard_eq h.head.heard_prefix hresult
    obtain ⟨later, rest⟩ := ih (stays hresult hsteady) (h.tail hfull) hfits hsteadies hresults
    refine ⟨later, ?_⟩
    rw [arrived, said, List.flatMap_cons, List.flatMap_cons, hfull, ← arrived, ← said, rest]

/-- A client that no failure of the stream has kept from an answer in earlier turns gets what is due
to it in the next. -/
theorem due_of_keepsStep (step : KeepsStep turn InStep works Fits Steady) {earlier : List Turn}
    {t : Turn} {s : σ} (hs : InStep s) (h : Answered (earlier ++ [t]))
    (hfits : ∀ u ∈ earlier ++ [t], Fits u) (hsteady : ∀ t ∈ earlier, Steady t)
    (hresults : ∀ result ∈ (Steps.performAll (earlier.map turn) s).1, gaveUp result = false) :
    t.Due works (arrived (earlier ++ [t]) = said (earlier ++ [t]))
      ((turn t).perform (Steps.performAll (earlier.map turn) s).2).1 := by
  obtain ⟨later, heard⟩ := inStep_performAll step hs h.front
    (fun u hu => hfits u (List.mem_append_left _ hu)) hsteady hresults
  have arrived_eq : arrived (earlier ++ [t]) = said earlier ++ Stream.heard t.arrivals := by
    rw [← heard]
    simp [arrived]
  have said_eq : said (earlier ++ [t]) = said earlier ++ t.frame := by simp [said]
  rw [arrived_eq, said_eq, List.append_cancel_left_eq]
  exact (step t _ later (h.back heard) (hfits t (by simp))).1

end InStep

/-! ### Both clients -/

theorem Frame.encode_of_sendable {r : Request} (h : r.Sendable) :
    ∃ frame, encode r = .ok frame := by
  obtain ⟨body, hbody, hl⟩ := h
  exact ⟨_, encode_eq_ok_iff.2 ⟨body, hbody, hl, rfl⟩⟩

theorem Frame.encode_of_not_sendable {r : Request} (h : ¬ r.Sendable) :
    ∃ fault, encode r = .error (.protocol fault) := by
  unfold encode
  cases hframe : r.encode >>= wrap with
  | ok frame =>
    obtain ⟨body, hbody, hwrap⟩ := bind_eq_ok.1 hframe
    exact absurd ⟨body, hbody, (putString_eq_ok_iff.1 hwrap).1⟩ h
  | error e => exact ⟨.wire e, rfl⟩

namespace Stream

/-- Nothing on the stream fails. -/
structure Fine (s : Stream) : Prop where
  smooth : s.Smooth
  clear : ∀ event ∈ s.reads, event ≠ .silence → ∃ b, event = .data b

theorem exists_pieces {events : List ReadEvent} (h : ∀ event ∈ events, ∃ b, event = .data b) :
    ∃ bs, events = pieces bs ∧ bs.flatten = heard events := by
  induction events with
  | nil => exact ⟨[], rfl, rfl⟩
  | cons event events ih =>
    obtain ⟨⟨b, rfl⟩, hevents⟩ := List.forall_mem_cons.1 h
    obtain ⟨bs, rfl, hbs⟩ := ih hevents
    exact ⟨b :: bs, rfl, congrArg (b ++ ·) hbs⟩

theorem heard_filter (events : List ReadEvent) :
    heard (events.filter (· ≠ .silence)) = heard events := by
  induction events with
  | nil => rfl
  | cons event events ih =>
    cases event with
    | data b => exact congrArg (b ++ ·) ih
    | fail e => exact ih
    | silence => exact ih

theorem heard_hear (s : Stream) (arrivals : List ReadEvent) :
    heard (s.hear arrivals).reads = heard s.reads ++ heard arrivals := by
  rw [hear, heard_append, heard_append, heard_filter, heard_silence, heard_nil, List.append_nil]

theorem silence_mem_hear (s : Stream) (arrivals : List ReadEvent) :
    .silence ∈ (s.hear arrivals).reads := by
  simp [hear]

theorem lasts_hear {s : Stream} {arrivals : List ReadEvent}
    (hs : ∀ event ∈ s.reads, event.claimsEnd = false)
    (harrivals : ∀ event ∈ arrivals, event.claimsEnd = false) : Lasts (s.hear arrivals).reads where
  silence := silence_mem_hear s arrivals
  claims event hevent := by
    simp only [hear, List.mem_append, List.mem_filter, List.mem_singleton] at hevent
    obtain (⟨hevent, -⟩ | hevent) | rfl := hevent
    · exact hs event hevent
    · exact harrivals event hevent
    · rfl

/-- On a stream that works, only data is to be read before the silence. -/
theorem Fine.reads_hear {s : Stream} (h : s.Fine) {t : Turn} (ht : t.Clear) :
    ∃ bs, bs.flatten = heard s.reads ++ heard t.arrivals ∧
      (s.hear t.arrivals).reads = pieces bs ++ [.silence] := by
  have data : ∀ event ∈ s.reads.filter (· ≠ .silence) ++ t.arrivals, ∃ b, event = .data b := by
    intro event hevent
    obtain hevent | hevent := List.mem_append.1 hevent
    · obtain ⟨hevent, hne⟩ := List.mem_filter.1 hevent
      exact h.clear event hevent (of_decide_eq_true hne)
    · exact ht event hevent
  obtain ⟨bs, hbs, hheard⟩ := exists_pieces data
  refine ⟨bs, ?_, ?_⟩
  · rw [hheard, heard_append, heard_filter]
  · rw [hear, hbs]

theorem Smooth.hear {s : Stream} (h : s.Smooth) (arrivals : List ReadEvent) :
    (s.hear arrivals).Smooth :=
  ⟨h.writes, h.flushes⟩

theorem fine_of_pieces {s : Stream} {bs : List Bytes} (hs : s.Smooth)
    (h : s.reads = pieces bs ++ [.silence]) : s.Fine where
  smooth := hs
  clear event hevent hne := by
    rw [h, List.mem_append, List.mem_singleton] at hevent
    obtain ⟨b, -, rfl⟩ := List.mem_map.1 (hevent.resolve_right hne)
    exact ⟨b, rfl⟩

end Stream

namespace Client

/-- All that the peer has said has been read. -/
structure InStep (works : Prop) (c : Cursor) : Prop where
  pending : c.pending = []
  unheard : Stream.heard c.stream.reads = []
  lasts : ∀ event ∈ c.stream.reads, event.claimsEnd = false
  fine : works → c.stream.Fine

theorem request_of_not_sendable {r : Request} (h : ¬ r.Sendable) (stream : Stream) :
    ∃ fault, (request r).perform { stream } = (.error (.protocol fault), { stream }) := by
  rw [perform_request, perform_send r rfl]
  cases hr : r.encode with
  | error e => exact ⟨.wire e, rfl⟩
  | ok body =>
    refine ⟨.unexpectedResponse, ?_⟩
    dsimp only
    rw [if_neg fun hl => h ⟨body, hr, hl⟩]

variable {t : Turn} {stream : Stream}

theorem request_of_full (hs : stream.Fine) (hunheard : Stream.heard stream.reads = [])
    (h : Answered [t]) (hclear : t.Clear) (hsend : t.request.Sendable)
    (hfull : Stream.heard t.arrivals = t.frame) :
    ((request t.request).perform { stream := stream.hear t.arrivals }).1 = t.outcome ∧
      ((request t.request).perform { stream := stream.hear t.arrivals }).2.stream.Fine := by
  have ⟨message, hmessage, hm⟩ := hsend
  obtain ⟨bs, hbs, hreads⟩ := hs.reads_hear hclear
  rw [hunheard, List.nil_append, hfull, Turn.frame_of_sendable hsend,
    ← List.append_nil (stringBytes _)] at hbs
  obtain ⟨later, hsmooth, ⟨left, -, hleft⟩, hx⟩ := request_of_pieces (hs.smooth.hear t.arrivals)
    hmessage hm (h.short t List.mem_cons_self) hreads hbs
  rw [hx]
  exact ⟨rfl, Stream.fine_of_pieces hsmooth hleft⟩

theorem request_of_part (hs : stream.Fine) (hunheard : Stream.heard stream.reads = [])
    (h : Answered [t]) (hclear : t.Clear) (hsend : t.request.Sendable)
    (hpart : Stream.heard t.arrivals ≠ t.frame) :
    ((request t.request).perform { stream := stream.hear t.arrivals }).1 = .error .timeout := by
  have ⟨message, hmessage, hm⟩ := hsend
  obtain ⟨bs, hbs, hreads⟩ := hs.reads_hear hclear
  have hfront := h.heard_prefix
  rw [hunheard, List.nil_append] at hbs
  rw [Turn.frame_of_sendable hsend, ← hbs] at hfront hpart
  exact request_of_silence (hs.smooth.hear t.arrivals) hmessage hm (h.short t List.mem_cons_self)
    hreads hfront hpart

theorem keepsStep (works : Prop) :
    KeepsStep turn (InStep works) works (fun t => t.Lasts ∧ (works → t.Clear)) fun _ => True := by
  rintro t ⟨stream, pending⟩ ⟨rfl, unheard, lasts, fine⟩ h ⟨last, hclear⟩
  have hturn : (turn t).perform ⟨stream, []⟩ =
    (request t.request).perform ⟨stream.hear t.arrivals, []⟩ := rfl
  have heard : Stream.heard (stream.hear t.arrivals).reads = Stream.heard t.arrivals := by
    rw [Stream.heard_hear, unheard, List.nil_append]
  have hlasts := Stream.lasts_hear lasts last
  have hfront := h.heard_prefix
  rw [hturn]
  by_cases hsend : t.request.Sendable
  · have ⟨message, hmessage, hm⟩ := hsend
    rw [Turn.frame_of_sendable hsend, ← heard] at hfront
    have found := request_of_heard hmessage hm (h.short t List.mem_cons_self) hlasts hfront
    rw [heard, ← Turn.frame_of_sendable hsend] at found
    have full (hworks : works) := request_of_full (fine hworks) unheard h (hclear hworks) hsend
    have part (hworks : works) := request_of_part (fine hworks) unheard h (hclear hworks) hsend
    obtain ⟨due, stays⟩ :=
      Turn.Due.of_found hsend found (fun hworks hfull => (full hworks hfull).1) part
    refine ⟨due, fun hresult _ => ?_⟩
    obtain ⟨hfull, hunheard, hlater⟩ := stays hresult
    exact ⟨pending_request _ rfl, hunheard, hlater.claims, fun hworks => (full hworks hfull).2⟩
  · obtain ⟨fault, hx⟩ := request_of_not_sendable hsend (stream.hear t.arrivals)
    rw [Turn.frame_of_not_sendable hsend, List.prefix_nil] at hfront
    rw [hx]
    refine ⟨.fault hsend works _ fault, fun _ _ => ⟨rfl, heard.trans hfront, hlasts.claims, ?_⟩⟩
    intro hworks
    obtain ⟨bs, -, hreads⟩ := (fine hworks).reads_hear (hclear hworks)
    exact Stream.fine_of_pieces ((fine hworks).smooth.hear t.arrivals) hreads

end Client

namespace BufferedClient

/-- All that the peer has said has been read and looked at. -/
structure InStep (works : Prop) (c : BufferedClient) : Prop extends Ready c where
  inbox : c.inbox.bytes = []
  unheard : Stream.heard c.stream.reads = []
  fine : works → c.stream.Fine

/-- A message that does not decode makes a buffered client report the connection closed instead of
the next answer. -/
def Legible (t : Turn) : Prop := t.request.Sendable → ∃ a, Response.decode t.answer = .ok a

variable {t : Turn} {c : BufferedClient}

theorem Ready.hear (h : c.Ready) (arrivals : List ReadEvent) :
    Ready { c with stream := c.stream.hear arrivals } :=
  ⟨h.outbox, h.ended, h.failed⟩

section Fine

variable (hc : c.Ready) (hinbox : c.inbox.bytes = []) (hs : c.stream.Fine)
  (hunheard : Stream.heard c.stream.reads = []) (h : Answered [t]) (hclear : t.Clear)
  (hsend : t.request.Sendable)
include hc hinbox hs hunheard h hclear hsend

theorem request_of_full (hfull : Stream.heard t.arrivals = t.frame) :
    ((request t.request).perform { c with stream := c.stream.hear t.arrivals }).1 = t.outcome ∧
      ((request t.request).perform { c with stream := c.stream.hear t.arrivals }).2.stream.Fine := by
  obtain ⟨frame, hframe⟩ := Frame.encode_of_sendable hsend
  obtain ⟨bs, hbs, hreads⟩ := hs.reads_hear hclear
  rw [hunheard, List.nil_append, hfull, Turn.frame_of_sendable hsend,
    ← List.append_nil (stringBytes _), ← List.nil_append bs.flatten, ← hinbox] at hbs
  obtain ⟨later, hsmooth, -, ⟨left, -, hleft⟩, hx⟩ := request_of_pieces (hc.hear t.arrivals)
    (hs.smooth.hear t.arrivals) (fun _ => hinbox) hframe (h.short t List.mem_cons_self) hreads hbs
  rw [hx]
  exact ⟨rfl, Stream.fine_of_pieces hsmooth hleft⟩

theorem request_of_part (hpart : Stream.heard t.arrivals ≠ t.frame) :
    ((request t.request).perform { c with stream := c.stream.hear t.arrivals }).1 =
      .error .timeout := by
  obtain ⟨frame, hframe⟩ := Frame.encode_of_sendable hsend
  obtain ⟨bs, hbs, hreads⟩ := hs.reads_hear hclear
  have hfront := h.heard_prefix
  rw [hunheard, List.nil_append] at hbs
  rw [Turn.frame_of_sendable hsend, ← hbs] at hfront hpart
  exact request_of_silence (hc.hear t.arrivals) (hs.smooth.hear t.arrivals) hinbox hframe
    (h.short t List.mem_cons_self) hreads hfront hpart

end Fine

theorem keepsStep (works : Prop) :
    KeepsStep turn (InStep works) works (fun t => works → t.Clear) Legible := by
  rintro t c ⟨ready, hinbox, unheard, fine⟩ h hclear
  have hturn : (turn t).perform c =
    (request t.request).perform { c with stream := c.stream.hear t.arrivals } := rfl
  have heard : Stream.heard (c.stream.hear t.arrivals).reads = Stream.heard t.arrivals := by
    rw [Stream.heard_hear, unheard, List.nil_append]
  have hfront := h.heard_prefix
  rw [hturn]
  by_cases hsend : t.request.Sendable
  · obtain ⟨frame, hframe⟩ := Frame.encode_of_sendable hsend
    rw [Turn.frame_of_sendable hsend, ← heard] at hfront
    have found := request_of_heard (ready.hear t.arrivals) hinbox hframe
      (h.short t List.mem_cons_self) (Stream.silence_mem_hear _ _) hfront
    dsimp only at found
    rw [heard, ← Turn.frame_of_sendable hsend] at found
    have full (hworks : works) :=
      request_of_full ready hinbox (fine hworks) unheard h (hclear hworks) hsend
    have part (hworks : works) :=
      request_of_part ready hinbox (fine hworks) unheard h (hclear hworks) hsend
    obtain ⟨due, stays⟩ :=
      Turn.Due.of_found hsend found (fun hworks hfull => (full hworks hfull).1) part
    refine ⟨due, fun hresult legible => ?_⟩
    obtain ⟨a, ha⟩ := legible hsend
    obtain ⟨hfull, hempty, hunheard, hready⟩ := stays hresult
    exact ⟨hready a ha, hempty, hunheard, fun hworks => (full hworks hfull).2⟩
  · obtain ⟨fault, hframe⟩ := Frame.encode_of_not_sendable hsend
    rw [Turn.frame_of_not_sendable hsend, List.prefix_nil] at hfront
    rw [request_of_fault (ready.hear t.arrivals).outbox hframe]
    refine ⟨.fault hsend works _ fault, fun _ _ =>
      ⟨ready.hear t.arrivals, hinbox, heard.trans hfront, ?_⟩⟩
    intro hworks
    obtain ⟨bs, -, hreads⟩ := (fine hworks).reads_hear (hclear hworks)
    exact Stream.fine_of_pieces ((fine hworks).smooth.hear t.arrivals) hreads

end BufferedClient

/-! ### Answers to one's own requests -/

/-- As long as no failure of the stream has ended an earlier turn on its connection, a client takes
the result of a turn from the frame that its own request was answered with, and from no other,
unless a failure of the stream ends this turn. All that reads meet, failures among it, comes in with
the turns. No read of a client without a buffer may fail as if the stream had ended, which that
client takes for a fault of the answer, and a buffered client must not have met a message that does
not decode. -/
theorem due_of_answered (stream : Stream) (hreads : stream.reads = []) {earlier : List Turn}
    {t : Turn} (h : Answered (earlier ++ [t])) :
    ((∀ u ∈ earlier ++ [t], u.Lasts) →
      (∀ result ∈ (Steps.performAll (earlier.map Client.turn) { stream }).1,
        gaveUp result = false) →
      t.Due (Works stream (earlier ++ [t])) (arrived (earlier ++ [t]) = said (earlier ++ [t]))
        ((Client.turn t).perform (Steps.performAll (earlier.map Client.turn) { stream }).2).1) ∧
    ((∀ t ∈ earlier, BufferedClient.Legible t) →
      (∀ result ∈ (Steps.performAll (earlier.map BufferedClient.turn) { stream }).1,
        gaveUp result = false) →
      t.Due (Works stream (earlier ++ [t])) (arrived (earlier ++ [t]) = said (earlier ++ [t]))
        ((BufferedClient.turn t).perform
          (Steps.performAll (earlier.map BufferedClient.turn) { stream }).2).1) := by
  have unheard : Stream.heard stream.reads = [] := by rw [hreads]; rfl
  have lasts : ∀ event ∈ stream.reads, event.claimsEnd = false := by simp [hreads]
  have fine (works : Works stream (earlier ++ [t])) : stream.Fine :=
    ⟨works.smooth, by simp [hreads]⟩
  constructor
  · intro hlasts hresults
    exact due_of_keepsStep (Client.keepsStep _) ⟨rfl, unheard, lasts, fine⟩ h
      (fun u hu => ⟨hlasts u hu, fun works => works.clear u hu⟩) (fun _ _ => trivial) hresults
  · intro hlegible hresults
    exact due_of_keepsStep (BufferedClient.keepsStep _) ⟨⟨rfl, rfl, rfl⟩, rfl, unheard, fine⟩ h
      (fun u hu works => works.clear u hu) hlegible hresults

/-- Everything is to be removed, which the peer says is done, though in two pieces. -/
def granted : Turn where
  request := .removeAllIdentities
  answer := [6]
  arrivals := [.data [0, 0], .data [0, 1, 6]]

/-- The same, which the peer refuses at once. -/
def refused : Turn where
  request := .removeAllIdentities
  answer := [5]
  arrivals := [.data [0, 0, 0, 1, 5]]

/-- A stream whose first write takes two bytes only. -/
def sluggish : Stream where
  writes := [.accept 2]

theorem refused_due :
    Answered [granted, refused] ∧ Works sluggish [granted, refused] ∧
      ((Client.turn refused).perform
        (Steps.performAll ([granted].map Client.turn) { stream := sluggish }).2).1 =
          .error .failure ∧
      ((BufferedClient.turn refused).perform
        (Steps.performAll ([granted].map BufferedClient.turn) { stream := sluggish }).2).1 =
          .error .failure := by
  have works : Works sluggish ([granted] ++ [refused]) :=
    ⟨⟨by simp [sluggish], by simp [sluggish]⟩, by simp [granted, refused, Turn.Clear]⟩
  have answered : Answered ([granted] ++ [refused]) := by decide +kernel
  have sendable : refused.request.Sendable := by decide
  have inFull : arrived ([granted] ++ [refused]) = said ([granted] ++ [refused]) := by
    decide +kernel
  obtain ⟨blocking, buffered⟩ := due_of_answered sluggish rfl answered
  have legible : ∀ t ∈ [granted], BufferedClient.Legible t := by
    intro t ht _
    obtain rfl := List.mem_singleton.1 ht
    exact ⟨.success, rfl⟩
  exact ⟨answered, works,
    (blocking (by decide) (by decide +kernel)).answered works sendable inFull,
    (buffered legible (by decide +kernel)).answered works sendable inFull⟩

/-- The same once more, but the peer's answer comes too late. -/
def late : Turn where
  request := .removeAllIdentities
  answer := [6]

/-- A refusal that comes behind the late answer. -/
def crowded : Turn where
  request := .removeAllIdentities
  answer := [5]
  arrivals := [.data [0, 0, 0, 1, 6], .data [0, 0, 0, 1, 5]]

/-- An answer of no kind that a client knows. -/
def garbled : Turn where
  request := .removeAllIdentities
  answer := [99]
  arrivals := [.data [0, 0, 0, 1, 99]]

/-- An answer that comes too late, before which a read fails as if the stream had ended. -/
def cutOff : Turn where
  request := .removeAllIdentities
  answer := [6]
  arrivals := [.fail { kind := .unexpectedEof, text := "unexpected end of file" }]

def reset : IoError where
  kind := .connectionReset
  text := "connection reset"

/-- A stream whose first flush fails, though the bytes have been taken. -/
def jolted : Stream where
  flushes := [some reset]

/-- A client that gave up takes the answer that comes late for that to its next request, here a
grant where it is refused, and so it does after a flush that failed. A client without a buffer does
so after a read that failed as if the stream had ended. A buffered client that met a message it
cannot decode does so one turn later. -/
theorem another_answer_taken :
    (Answered [late, crowded] ∧ crowded.outcome = .error .failure ∧
      (Steps.performAll ([late, crowded].map Client.turn) {}).1 = [.error .timeout, .ok .done] ∧
      (Steps.performAll ([late, crowded].map BufferedClient.turn) {}).1 =
        [.error .timeout, .ok .done] ∧
      (Steps.performAll ([late, crowded].map Client.turn) { stream := jolted }).1 =
        [.error (.io reset), .ok .done] ∧
      (Steps.performAll ([late, crowded].map BufferedClient.turn) { stream := jolted }).1 =
        [.error (.io reset), .ok .done]) ∧
    (Answered [cutOff, crowded] ∧
      (Steps.performAll ([cutOff, crowded].map Client.turn) {}).1 =
        [.error (.protocol .unexpectedResponse), .ok .done]) ∧
    Answered [garbled, granted, refused] ∧ refused.outcome = .error .failure ∧
      (Steps.performAll ([garbled, granted, refused].map BufferedClient.turn) {}).1 =
        [.error (.protocol (.unsupportedCommand 99)), .error (.protocol .disconnected),
          .ok .done] := by
  decide +kernel

end SshKeyring
