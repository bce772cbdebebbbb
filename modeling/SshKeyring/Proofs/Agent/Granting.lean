import SshKeyring.Proofs.Agent.Agreement

/-! What a client takes for a grant. A request other than for the list is granted by a message that
starts with the byte 6; what stands behind that byte in the message's frame is not looked at. Only
the frame's count can keep such a message from being a grant. So it is for both clients, wherever on
their connection the frame comes and however it is cut. -/

namespace SshKeyring

open Wire

/-! ### Messages -/

namespace Response

theorem decode_eq_success_iff {body : Bytes} :
    decode body = .ok .success ↔ body.head? = some 6 := by
  refine ⟨head_of_decode, fun h => ?_⟩
  cases body with
  | nil => cases h
  | cons b rest =>
    obtain rfl : b = 6 := Option.some.inj h
    rfl

theorem outcome_eq_ok_iff {a : Response} {r : Request} (hr : r ≠ .requestIdentities) {o : Outcome} :
    a.outcome r = .ok o ↔ a = .success ∧ o = .done := by
  have accepted : a.outcome r = a.accepted.map fun _ => .done := by
    cases r with
    | requestIdentities => exact absurd rfl hr
    | _ => rfl
  rw [accepted]
  cases a <;> simp [Response.accepted, Except.map, eq_comm]

/-- What a client takes the message of a frame for. One that is too long for it is a fault. -/
def received (fault : AgentError) (body : Bytes) : Except AgentError Response :=
  if body.length ≤ Frame.maxLength then (decode body).mapError .protocol else .error fault

/-- A message that a client takes for a grant. -/
def Grants (body : Bytes) : Prop := body.length ≤ Frame.maxLength ∧ body.head? = some 6

instance (body : Bytes) : Decidable (Grants body) := inferInstanceAs (Decidable (_ ∧ _))

theorem received_eq_success_iff (fault : AgentError) {body : Bytes} :
    received fault body = .ok .success ↔ Grants body := by
  unfold received Grants
  split
  · next hl =>
    rw [mapError_eq_ok, decode_eq_success_iff, iff_and_self]
    exact fun _ => hl
  · next hl => simp [hl]

theorem received_bind_eq_ok_iff (fault : AgentError) {body : Bytes} {r : Request}
    (hr : r ≠ .requestIdentities) {o : Outcome} :
    (received fault body).bind (·.outcome r) = .ok o ↔ o = .done ∧ Grants body := by
  rw [← received_eq_success_iff fault]
  constructor
  · intro h
    obtain ⟨a, ha, ho⟩ := bind_eq_ok.1 h
    obtain ⟨rfl, rfl⟩ := (outcome_eq_ok_iff hr).1 ho
    exact ⟨rfl, ha⟩
  · rintro ⟨rfl, ha⟩
    exact bind_eq_ok.2 ⟨.success, ha, (outcome_eq_ok_iff hr).2 ⟨rfl, rfl⟩⟩

end Response

/-! ### The first frame of a buffer -/

namespace Frame

/-- What the first frame of a buffer gives a client; nothing yet while it is not complete. -/
def first (buffer : Bytes) : Except AgentError (Option Response) := (decode.perform buffer).1

theorem first_eq_none_iff {buffer : Bytes} : first buffer = .ok none ↔ Incomplete buffer := by
  constructor
  · intro h
    exact (incomplete_of_decode (Prod.ext h rfl)).2
  · intro h
    rw [first, perform_decode, split_eq_none_iff.2 h]

theorem first_append {buffer : Bytes} (h : ¬ Incomplete buffer) (more : Bytes) :
    first (buffer ++ more) = first buffer := by
  rw [← first_eq_none_iff, first] at h
  cases hd : decode.perform buffer with
  | mk result left =>
    rw [hd] at h
    rw [first, first, perform_decode_append hd h, hd]

/-- A frame that is there is taken for what its message is, or is refused for its count. -/
theorem first_frame {body : Bytes} (hl : body.length < countLimit) (rest : Bytes) :
    first (stringBytes body ++ rest) =
      (Response.received (.protocol (.wire .length)) body).map some := by
  rw [first, perform_decode, Response.received]
  by_cases hmax : body.length ≤ maxLength
  · rw [split_append hmax, if_pos hmax]
  · have count : announced? (stringBytes body ++ rest) = some body.length := by
      rw [stringBytes, List.append_assoc, announced?_count hl]
    have refused : split (stringBytes body ++ rest) = .error .length := by
      rw [split, count]
      exact if_pos (Nat.lt_of_not_le hmax)
    rw [refused, if_neg hmax]
    rfl

theorem not_incomplete_frame {body : Bytes} (hl : body.length < countLimit) (rest : Bytes) :
    ¬ Incomplete (stringBytes body ++ rest) := by
  rw [← first_eq_none_iff, first_frame hl]
  cases Response.received (.protocol (.wire .length)) body <;> simp [Except.map]

end Frame

/-! ### The client that reads no further -/

namespace Client

theorem receive_of_brings {c : Cursor} {body : Bytes} (hl : body.length < countLimit)
    (h : c.stream.Brings [] [body]) :
    (receive.perform c).1 = Response.received (.protocol .unexpectedResponse) body := by
  obtain ⟨bs, rest, events, hbs, hreads⟩ := h
  rw [List.nil_append, List.flatMap_singleton] at hbs
  by_cases hmax : body.length ≤ Frame.maxLength
  · obtain ⟨left, -, hreceive⟩ := perform_receive_pieces hmax hreads hbs
    rw [hreceive, Response.received, if_pos hmax]
  · rw [perform_receive_long hl (Nat.lt_of_not_le hmax) hreads hbs, Response.received, if_neg hmax]

/-- A request that has gone out is granted just if the reply is taken for a grant. -/
theorem request_eq_ok_iff {r : Request} (hr : r ≠ .requestIdentities) {c sent : Cursor}
    (hsent : (send r).perform c = (.ok (), sent)) {body : Bytes} (hl : body.length < countLimit)
    (h : sent.stream.Brings [] [body]) (o : Outcome) :
    ((request r).perform c).1 = .ok o ↔ o = .done ∧ Response.Grants body := by
  rw [perform_request, hsent]
  dsimp only
  rw [receive_of_brings hl h, Response.received_bind_eq_ok_iff _ hr]

end Client

/-! ### The client that reads ahead -/

namespace BufferedClient

/-- The client is going to look at the first frame that comes: it has no failure and no end to
report first, and its inbox holds no frame that it would not look at. -/
structure Receptive (c : BufferedClient) : Prop where
  failed : c.failed = false
  ended : c.readable = true → c.ended = false
  unread : c.readable = false → Frame.Incomplete c.inbox.bytes

/-- The client has got what the first frame of these bytes gives it, and holds all of them while
there is none. -/
structure Meets (bytes : Bytes) (out : Except AgentError (Option Response) × BufferedClient) :
    Prop where
  result : out.1 = Frame.first bytes
  waiting : out.1 = .ok none → out.2.inbox.bytes = bytes

theorem Meets.orElse {front more : Bytes}
    {out : Except AgentError (Option Response) × BufferedClient}
    {onward : BufferedClient → Except AgentError (Option Response) × BufferedClient}
    (hout : Meets front out)
    (honward : ∀ later, later.inbox.bytes = front → Frame.Incomplete front →
      Meets (front ++ more) (onward later)) :
    Meets (front ++ more) (BufferedClient.orElse out onward) := by
  obtain ⟨result, later⟩ := out
  obtain ⟨hresult, hwaiting⟩ := hout
  obtain rfl : result = Frame.first front := hresult
  by_cases hnone : Frame.first front = .ok none
  · have kept : later.inbox.bytes = front := hwaiting hnone
    rw [hnone]
    exact honward later kept (Frame.first_eq_none_iff.1 hnone)
  · have stands : BufferedClient.orElse (Frame.first front, later) onward =
        (Frame.first front, later) := by
      unfold BufferedClient.orElse
      split
      · next h => exact absurd (congrArg Prod.fst h) hnone
      · rfl
    rw [stands]
    exact ⟨(Frame.first_append (mt Frame.first_eq_none_iff.2 hnone) more).symm,
      fun h => absurd h hnone⟩

theorem meets_of_incomplete {c : BufferedClient} (h : Frame.Incomplete c.inbox.bytes) :
    Meets c.inbox.bytes (.ok none, c) :=
  ⟨(Frame.first_eq_none_iff.2 h).symm, fun _ => rfl⟩

theorem meets_decode (c : BufferedClient) : Meets c.inbox.bytes (decode.perform c) := by
  have result : (Inbox.decode.perform c.inbox).1 = Frame.first c.inbox.bytes ∧
      ((Inbox.decode.perform c.inbox).1 = .ok none →
        (Inbox.decode.perform c.inbox).2.bytes = c.inbox.bytes) := by
    unfold Inbox.decode
    rw [Steps.perform_bind, Steps.perform_get]
    dsimp only [Frame.first]
    cases h : Frame.decode.perform c.inbox.bytes with
    | mk result rest =>
      rcases result with e | _ | a
      · exact ⟨rfl, fun h => by cases h⟩
      · refine ⟨rfl, fun _ => ?_⟩
        exact (Inbox.bytes_reserve _ _).trans (Frame.incomplete_of_decode h).1
      · exact ⟨rfl, fun h => by cases h⟩
  rw [perform_decode]
  rcases hd : Inbox.decode.perform c.inbox with ⟨e | a, inbox⟩
  · rw [hd] at result
    exact ⟨result.1, fun h => by cases h⟩
  · rw [hd] at result
    exact ⟨result.1, result.2⟩

/-- The bytes of one read are looked at part by part, as many at a time as the inbox has room for.
In front of each part the inbox holds no whole frame. -/
theorem meets_readData (events : List ReadEvent) {fuel : Nat} {b : Bytes} {c : BufferedClient}
    (hfuel : b.length ≤ fuel) (hc : Frame.Incomplete c.inbox.bytes) :
    Meets (c.inbox.bytes ++ b) ((readData events fuel b).perform c) := by
  induction fuel generalizing b c with
  | zero =>
    obtain rfl := List.length_eq_zero_iff.1 (Nat.le_zero.1 hfuel)
    rw [List.append_nil]
    exact meets_of_incomplete hc
  | succ fuel ih =>
    by_cases hb : b = []
    · subst hb
      rw [List.append_nil]
      exact meets_of_incomplete hc
    -- there is room for one byte at least, so each part leaves fewer of them
    have room := Inbox.le_room_reserve 1 c.inbox
    rw [perform_readData_succ events fuel hb, append_eq_taken c, ← bytes_taking events]
    refine (meets_decode _).orElse fun later hlater hnone => ?_
    rw [← hlater] at hnone ⊢
    have shorter : (b.drop (c.inbox.reserve 1).room).length ≤ fuel := by
      rw [List.length_drop]
      omega
    exact ih (c := { later with readable := false }) shorter hnone

theorem meets_readOn {bs : List Bytes} (events : List ReadEvent) {c : BufferedClient}
    (hc : Frame.Incomplete c.inbox.bytes) (h : ¬ Frame.Incomplete (c.inbox.bytes ++ bs.flatten)) :
    Meets (c.inbox.bytes ++ bs.flatten) ((readOn (Stream.pieces bs ++ events)).perform c) := by
  induction bs generalizing c with
  | nil => exact absurd (by simpa using hc) h
  | cons b bs ih =>
    rw [List.flatten_cons, ← List.append_assoc] at h ⊢
    rw [Stream.pieces, List.map_cons, List.cons_append, perform_readOn_data, ← Stream.pieces]
    refine (meets_readData _ (Nat.le_refl _) hc).orElse fun later hlater hnone => ?_
    rw [← hlater] at hnone h ⊢
    exact ih hnone h

theorem meets_next {c : BufferedClient} (hc : c.Receptive) {bs : List Bytes}
    {events : List ReadEvent} (hreads : c.stream.reads = Stream.pieces bs ++ events)
    (h : ¬ Frame.Incomplete (c.inbox.bytes ++ bs.flatten)) :
    Meets (c.inbox.bytes ++ bs.flatten) (next.perform c) := by
  cases hreadable : c.readable with
  | true =>
    rw [perform_next (hc.ended hreadable) hc.failed, if_pos hreadable, hreads]
    refine (meets_decode c).orElse fun later hlater hnone => ?_
    rw [← hlater] at hnone h ⊢
    exact meets_readOn (c := { later with readable := false }) events hnone h
  | false =>
    have reads_on : next.perform c = (readOn c.stream.reads).perform c := by
      unfold next
      rw [Steps.perform_bind, Steps.perform_get]
      simp only [hc.failed, hreadable, Bool.false_eq_true, if_false]
    rw [reads_on, hreads]
    exact meets_readOn events (hc.unread hreadable) h

theorem request_eq_ok_iff {r : Request} (hr : r ≠ .requestIdentities) {c sent : BufferedClient}
    (hsent : (send r).perform c = (.ok (), sent)) (hc : sent.Receptive) {body : Bytes}
    (hl : body.length < countLimit) (h : sent.stream.Brings sent.inbox.bytes [body])
    (o : Outcome) :
    ((request r).perform c).1 = .ok o ↔ o = .done ∧ Response.Grants body := by
  obtain ⟨bs, rest, events, hbs, hreads⟩ := h
  rw [List.flatMap_singleton] at hbs
  have got := (meets_next hc hreads (by rw [hbs]; exact Frame.not_incomplete_frame hl rest)).result
  rw [hbs, Frame.first_frame hl] at got
  rw [perform_request, hsent, ← Response.received_bind_eq_ok_iff (.protocol (.wire .length)) hr]
  dsimp only
  generalize next.perform sent = out at got
  obtain ⟨result, later⟩ := out
  obtain rfl : result = _ := got
  cases Response.received (.protocol (.wire .length)) body <;> rfl

end BufferedClient

/-! ### Both clients -/

/-- Once a request other than for the list has gone out, and where the frame of a reply is what
comes next, cut anywhere, both clients report success just if the reply is not too long and starts
with the byte 6. -/
theorem granted_iff_grants {r : Request} (hr : r ≠ .requestIdentities) {body : Bytes}
    (hl : body.length < countLimit) (o : Outcome) :
    (∀ c sent : Cursor, (Client.send r).perform c = (.ok (), sent) →
      sent.stream.Brings [] [body] →
      (((Client.request r).perform c).1 = .ok o ↔ o = .done ∧ Response.Grants body)) ∧
    (∀ c sent : BufferedClient, (BufferedClient.send r).perform c = (.ok (), sent) →
      sent.Receptive → sent.stream.Brings sent.inbox.bytes [body] →
      (((BufferedClient.request r).perform c).1 = .ok o ↔ o = .done ∧ Response.Grants body)) :=
  ⟨fun _ _ hsent h => Client.request_eq_ok_iff hr hsent hl h o,
    fun _ _ hsent hc h => BufferedClient.request_eq_ok_iff hr hsent hc hl h o⟩

/-- A reply of two bytes, the first of which is that of a grant, cut between them, and a refusal. -/
def wordy : Stream where
  reads := [.data [0, 0, 0, 2, 6], .data [1, 0, 0, 0, 1, 5]]

def wordySent : Stream := { wordy with taken := [0, 0, 0, 1, 19] }

theorem wordy_granted :
    wordySent.Brings [] [[6, 1]] ∧ Response.Grants [6, 1] ∧
      ((Client.request .removeAllIdentities).perform { stream := wordy }).1 = .ok .done ∧
      ((BufferedClient.request .removeAllIdentities).perform { stream := wordy }).1 =
        .ok .done := by
  have brings : wordySent.Brings [] [[6, 1]] :=
    ⟨[[0, 0, 0, 2, 6], [1, 0, 0, 0, 1, 5]], [0, 0, 0, 1, 5], [], by decide, by decide⟩
  have receptive : BufferedClient.Receptive { stream := wordySent } :=
    ⟨rfl, fun _ => rfl, fun _ => .inl (by decide)⟩
  have grants : Response.Grants [6, 1] := by decide
  have asks : Request.removeAllIdentities ≠ .requestIdentities := by decide
  have short : ([6, 1] : Bytes).length < countLimit := by decide
  obtain ⟨blocking, buffered⟩ := granted_iff_grants asks short .done
  exact ⟨brings, grants,
    (blocking { stream := wordy } { stream := wordySent } (by decide) brings).2 ⟨rfl, grants⟩,
    (buffered { stream := wordy } { stream := wordySent } (by decide) receptive brings).2
      ⟨rfl, grants⟩⟩

/-- So a reply need not be that one byte, with either client. -/
theorem grant_of_two_bytes :
    (¬ ∀ body : Bytes, body.length < countLimit →
      (((Client.request .removeAllIdentities).perform
        { stream := { reads := [.data (stringBytes body)] } }).1 = .ok .done ↔ body = [6])) ∧
    ¬ ∀ body : Bytes, body.length < countLimit →
      (((BufferedClient.request .removeAllIdentities).perform
        { stream := { reads := [.data (stringBytes body)] } }).1 = .ok .done ↔ body = [6]) := by
  have other : ([6, 0] : Bytes) ≠ [6] := by decide
  have short : ([6, 0] : Bytes).length < countLimit := by decide
  exact ⟨fun h => other ((h [6, 0] short).1 (by decide)),
    fun h => other ((h [6, 0] short).1 (by decide))⟩

end SshKeyring
