import SshKeyring.Agent.Client
import SshKeyring.Proofs.Agent.Cursor

/-! One exchange of a client over a stream, whatever the stream does and whatever came of the
requests before. A client never leaves bytes of a request for the next one, so a request that has
an answer has put its own frame on the stream and nothing else, and has taken one frame off it. -/

namespace SshKeyring

open Wire

/-! ### Answers -/

namespace Response

/-- A message that is an answer starts with the answer's number. -/
theorem head_of_decode {body : Bytes} {a : Response} (h : decode body = .ok a) :
    body.head? = some a.number := by
  obtain ⟨⟨_, rest⟩, hr, rfl⟩ := map_eq_ok.1 h
  obtain ⟨number, left, hb, hfields⟩ := (Reader.bind_eq_ok_iff _ _ _ _).1 hr
  obtain ⟨-, rfl⟩ := (byte_exact.mapError _ _ _ _).1 hb
  split at hfields
  · cases hfields
    rfl
  · cases hfields
    rfl
  · obtain ⟨held, _, -, hlist⟩ := (Reader.bind_eq_ok_iff _ _ _ _).1 hfields
    cases hlist
    rfl
  · cases hfields

theorem number_of_outcome_ok {a : Response} {r : Request} {o : Outcome}
    (h : a.outcome r = .ok o) : a.number = if r = .requestIdentities then 12 else 6 := by
  by_cases hr : r = .requestIdentities
  · subst hr
    obtain ⟨held, hl, -⟩ := map_eq_ok.1 h
    cases a with
    | identities held => rfl
    | failure => cases hl
    | success => cases hl
  · have accepted : a.accepted = .ok () := by
      cases r with
      | requestIdentities => exact absurd rfl hr
      | _ => exact (map_eq_ok.1 h).choose_spec.1
    rw [if_neg hr]
    cases a with
    | success => rfl
    | failure => cases accepted
    | identities held => cases accepted

theorem eq_failure_of_outcome {a : Response} {r : Request}
    (h : a.outcome r = .error .failure) : a = .failure := by
  cases a with
  | failure => rfl
  | success => cases r <;> cases h
  | identities held => cases r <;> cases h

end Response

/-! ### The client -/

namespace Client

theorem perform_onCursor {α : Type} (task : Cursor.Task α) (c : Cursor) :
    (onCursor task).perform c =
      ((task.perform c).1.mapError CursorError.toAgentError, (task.perform c).2) := rfl

/-- A request is sent once it is written down whole; nothing else is pending then. -/
theorem perform_send (r : Request) {c : Cursor} (hc : c.pending = []) :
    (send r).perform c =
      match r.encode with
      | .error e => (.error (.protocol (.wire e)), c)
      | .ok body =>
        if body.length < countLimit then
          (onCursor Cursor.flush).perform { c with pending := stringBytes body }
        else (.error (.protocol .unexpectedResponse), c) := by
  unfold send
  rw [Steps.perform_bind, Steps.perform_ofExcept]
  cases r.encode with
  | error e => rfl
  | ok body =>
    simp only [mapError_ok, Steps.perform_bind, perform_onCursor, Cursor.perform_writeString,
      hc, List.nil_append]
    by_cases h : body.length < countLimit
    · simp only [if_pos h, mapError_ok]
    · simp only [if_neg h, mapError_error, CursorError.toAgentError]

/-- With nothing before it, a request that can be written down is all that a flush sends. -/
theorem perform_send_of_encode {r : Request} {body : Bytes} (hr : r.encode = .ok body)
    (hl : body.length < countLimit) (stream : Stream) :
    (send r).perform { stream } =
      (onCursor Cursor.flush).perform { stream, pending := stringBytes body } := by
  rw [perform_send r rfl, hr]
  dsimp only
  rw [if_pos hl]

theorem perform_receive (c : Cursor) :
    receive.perform c =
      (((Cursor.readString.perform c).1.mapError CursorError.toAgentError).bind fun body =>
        (Response.decode body).mapError .protocol, (Cursor.readString.perform c).2) := by
  unfold receive
  rw [Steps.perform_bind, perform_onCursor]
  rcases Cursor.readString.perform c with ⟨_ | _, _⟩ <;> rfl

/-- Receiving an answer touches nothing but what is to be read. -/
theorem receive_snd (c : Cursor) :
    ∃ reads, (receive.perform c).2 = { c with stream.reads := reads } := by
  rw [perform_receive]
  exact Cursor.readString_snd c

theorem perform_request (r : Request) (c : Cursor) :
    (request r).perform c =
      match (send r).perform c with
      | (.error e, sent) => (.error e, sent)
      | (.ok (), sent) =>
        ((receive.perform sent).1.bind (·.outcome r), (receive.perform sent).2) := by
  unfold request exchange
  rw [Steps.perform_bind, Steps.perform_bind]
  rcases (send r).perform c with ⟨_ | _, sent⟩
  · rfl
  · dsimp only
    rcases receive.perform sent with ⟨_ | _, _⟩ <;> rfl

/-- A client that has nothing pending has nothing pending after a request, whatever came of it. -/
theorem pending_request (r : Request) {c : Cursor} (hc : c.pending = []) :
    ((request r).perform c).2.pending = [] := by
  have sent : ((send r).perform c).2.pending = [] := by
    rw [perform_send r hc]
    split
    · exact hc
    · split
      · rw [perform_onCursor, Cursor.perform_flush]
        dsimp only
        split <;> rfl
      · exact hc
  rw [perform_request]
  split
  · next h => rw [h] at sent; exact sent
  · next later h =>
    rw [h] at sent
    obtain ⟨reads, hreads⟩ := receive_snd later
    rw [hreads]
    exact sent

/-- The client after some requests over a stream, whatever came of them. -/
def after (stream : Stream) (requests : List Request) : Cursor :=
  (Steps.performAll (requests.map request) { stream }).2

theorem pending_performAll (requests : List Request) {c : Cursor} (hc : c.pending = []) :
    (Steps.performAll (requests.map request) c).2.pending = [] := by
  induction requests generalizing c with
  | nil => exact hc
  | cons r requests ih => exact ih (pending_request r hc)

/-- A request has gone out: the stream has taken its frame and nothing else and then done a flush
that worked. Nothing was read. -/
structure Sent (r : Request) (before after : Stream) : Prop where
  taken : ∃ body, r.encode = .ok body ∧ body.length < countLimit ∧
    after.taken = before.taken ++ stringBytes body
  flushed : before.flushes.head?.join = none ∧ after.flushes = before.flushes.tail
  reads : after.reads = before.reads

/-- An answer has come in: a frame was read off the stream and nothing else, with a message that
starts with the byte and is not too long. Nothing was written. -/
structure Received (first : UInt8) (before after : Stream) : Prop where
  read : ∃ body : Bytes, body.length ≤ Frame.maxLength ∧ body.head? = some first ∧
    Stream.Reads before.reads (stringBytes body) after.reads
  others : after = { before with reads := after.reads }

/-- A request has gone out, and then an answer has come in. -/
def Exchanged (r : Request) (first : UInt8) (before after : Stream) : Prop :=
  ∃ between, Sent r before between ∧ Received first between after

theorem sent_of_send {r : Request} {c : Cursor} (hc : c.pending = [])
    (h : ((send r).perform c).1 = .ok ()) : Sent r c.stream ((send r).perform c).2.stream := by
  rw [perform_send r hc] at h ⊢
  split at h
  · cases h
  · next body hbody =>
    split at h
    · next hlimit =>
      rw [if_pos hlimit, perform_onCursor, Cursor.perform_flush]
      rw [perform_onCursor, Cursor.perform_flush] at h
      have pushed := mapError_eq_ok.1 h
      dsimp only at pushed ⊢
      split at pushed
      · cases pushed
      · next hfault =>
        have worked := mapError_eq_ok.1 pushed
        rw [Stream.perform_flush] at worked ⊢
        refine ⟨⟨body, hbody, hlimit, Stream.taken_of_send hfault⟩, ⟨?_, rfl⟩, rfl⟩
        dsimp only at worked
        split at worked
        · cases worked
        · assumption
    · cases h

theorem received_of_receive {c : Cursor} {a : Response} (h : (receive.perform c).1 = .ok a) :
    Received a.number c.stream (receive.perform c).2.stream := by
  rw [perform_receive] at h ⊢
  obtain ⟨body, hbody, hdecode⟩ := bind_eq_ok.1 h
  obtain ⟨hmax, hreads⟩ := Cursor.readString_fst_eq_ok (mapError_eq_ok.1 hbody)
  have first := Response.head_of_decode (mapError_eq_ok.1 hdecode)
  obtain ⟨reads, hc⟩ := Cursor.readString_snd c
  exact ⟨⟨body, hmax, first, hreads⟩, by rw [hc]⟩

/-! A refusal is only ever what an answer says: no fault of a stream or of a message is one. -/

theorem onCursor_ne_failure {α : Type} (task : Cursor.Task α) (c : Cursor) :
    ((onCursor task).perform c).1 ≠ .error .failure := by
  rw [perform_onCursor]
  rcases (task.perform c).1 with e | a
  · cases e <;> simp [CursorError.toAgentError]
  · simp

theorem send_ne_failure {r : Request} {c : Cursor} (hc : c.pending = []) :
    ((send r).perform c).1 ≠ .error .failure := by
  rw [perform_send r hc]
  split
  · simp
  · split
    · exact onCursor_ne_failure _ _
    · simp

theorem receive_ne_failure (c : Cursor) : (receive.perform c).1 ≠ .error .failure := by
  have read := onCursor_ne_failure Cursor.readString c
  rw [perform_onCursor] at read
  rw [perform_receive]
  cases h : (Cursor.readString.perform c).1.mapError CursorError.toAgentError with
  | error e =>
    rw [h] at read
    simpa [Except.bind] using read
  | ok body => cases hd : Response.decode body <;> simp [Except.bind, hd]

/-- A request that is granted or refused has been exchanged for an answer that says so. -/
theorem exchanged_of_request {r : Request} {c : Cursor} (hc : c.pending = [])
    (h : (∃ o, ((request r).perform c).1 = .ok o) ∨ ((request r).perform c).1 = .error .failure) :
    ∃ a : Response, ((request r).perform c).1 = a.outcome r ∧
      Exchanged r a.number c.stream ((request r).perform c).2.stream := by
  rw [perform_request] at h ⊢
  split at h
  · next e sent hsend =>
    obtain ⟨o, ho⟩ | he := h
    · cases ho
    · obtain rfl : e = .failure := Except.error.inj he
      exact absurd (congrArg Prod.fst hsend) (send_ne_failure hc)
  · next sent hsend =>
    have hsent := sent_of_send hc (congrArg Prod.fst hsend)
    rw [hsend] at hsent
    cases hreceive : (receive.perform sent).1 with
    | error e =>
      rw [hreceive] at h
      obtain ⟨o, ho⟩ | he := h
      · cases ho
      · obtain rfl : e = .failure := Except.error.inj he
        exact absurd hreceive (receive_ne_failure sent)
    | ok a => exact ⟨a, rfl, _, hsent, received_of_receive hreceive⟩

/-- Whatever a stream does and whatever came of the requests before, a request is only granted, or
refused, once its frame has gone out and one frame has come in with an answer that says so: 6 where
it is to be done, 12 where identities are to be listed, and 5 where it is refused. -/
theorem request_exchanged (stream : Stream) (earlier : List Request) (r : Request)
    {result : Except AgentError Outcome} {c : Cursor}
    (h : (request r).perform (after stream earlier) = (result, c)) :
    (r ≠ .requestIdentities → ∀ o, result = .ok o →
      Exchanged r 6 (after stream earlier).stream c.stream) ∧
    (result = .error .failure → Exchanged r 5 (after stream earlier).stream c.stream) ∧
    (r = .requestIdentities → ∀ o, result = .ok o →
      Exchanged r 12 (after stream earlier).stream c.stream) := by
  have hc : (after stream earlier).pending = [] := pending_performAll earlier rfl
  have granted : ∀ o, result = .ok o → Exchanged r (if r = .requestIdentities then 12 else 6)
      (after stream earlier).stream c.stream := by
    intro o ho
    obtain ⟨a, ha, hx⟩ := exchanged_of_request hc (.inl ⟨o, by rw [h, ho]⟩)
    rw [h] at ha hx
    rwa [Response.number_of_outcome_ok (ha.symm.trans ho)] at hx
  refine ⟨fun hr o ho => ?_, fun hf => ?_, fun hr o ho => ?_⟩
  · simpa only [if_neg hr] using granted o ho
  · obtain ⟨a, ha, hx⟩ := exchanged_of_request hc (.inr (by rw [h, hf]))
    rw [h] at ha hx
    rwa [Response.eq_failure_of_outcome (ha.symm.trans hf)] at hx
  · simpa only [if_pos hr] using granted o ho

/-- A stream that gives up in the middle of the first frame, and takes and brings the next ones in
pieces and with interruptions. -/
def stuttering : Stream where
  reads := [.data [0, 0], .fail { kind := .interrupted, text := "again" }, .data [0, 1, 6, 9]]
  writes := [.accept 2, .fail { kind := .brokenPipe, text := "gone" }, .accept 3,
    .fail { kind := .interrupted, text := "again" }]
  flushes := [none]

theorem stuttering_exchanged :
    (request .removeAllIdentities).perform (after stuttering [.requestIdentities]) =
        (.ok .done, { stream := { reads := [.data [9]], taken := [0, 0, 0, 0, 0, 1, 19] } }) ∧
      Exchanged .removeAllIdentities 6 (after stuttering [.requestIdentities]).stream
        { reads := [.data [9]], taken := [0, 0, 0, 0, 0, 1, 19] } := by
  have h : (request .removeAllIdentities).perform (after stuttering [.requestIdentities]) =
      (.ok .done, { stream := { reads := [.data [9]], taken := [0, 0, 0, 0, 0, 1, 19] } }) := rfl
  exact ⟨h, (request_exchanged stuttering [.requestIdentities] .removeAllIdentities h).1
    (by decide) .done rfl⟩

end Client

end SshKeyring
