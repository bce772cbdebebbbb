import SshKeyring.Agent.Session
import SshKeyring.Proofs.Agent.Delivery
import SshKeyring.Proofs.Agent.Message

/-! Requests to an agent that holds keys in memory and serves. A request with a well-formed key
whose message is not too long reaches it, and its answer comes back as the agent gave it; of the
agent nothing matters but the keys that it holds. -/

namespace SshKeyring

open Wire

/-! ### Messages that fit -/

/-- A message that can be written down and is not too long for a frame then. -/
def Frame.Fits (encoded : Except WireError Bytes) : Prop :=
  ∃ body, encoded = .ok body ∧ body.length ≤ maxLength

instance (encoded : Except WireError Bytes) : Decidable (Frame.Fits encoded) :=
  match encoded with
  | .ok body => decidable_of_iff (body.length ≤ Frame.maxLength) (by simp [Frame.Fits])
  | .error _ => isFalse (by simp [Frame.Fits])

namespace Request

def Fits (r : Request) : Prop := Frame.Fits r.encode

instance (r : Request) : Decidable r.Fits := inferInstanceAs (Decidable (Frame.Fits _))

theorem decode_of_fits {r : Request} (hw : r.WellFormed) (hf : r.Fits) :
    ∃ body, r.encode = .ok body ∧ body.length ≤ Frame.maxLength ∧ decode body = .ok r := by
  obtain ⟨body, hbody, hl⟩ := hf
  have readable := readable_of_encode hw hbody (Nat.le_trans hl (by decide))
  obtain rfl : r.number :: r.fields = body := by simpa [encode_of_readable readable] using hbody
  exact ⟨_, hbody, hl, map_eq_ok.2 ⟨_, read_fields readable, rfl⟩⟩

end Request

namespace Response

def Fits (a : Response) : Prop := Frame.Fits a.encode

instance (a : Response) : Decidable a.Fits := inferInstanceAs (Decidable (Frame.Fits _))

theorem decode_of_fits {a : Response} (hw : a.WellFormed) (hf : a.Fits) :
    ∃ body, a.encode = .ok body ∧ body.length ≤ Frame.maxLength ∧ decode body = .ok a := by
  obtain ⟨body, hbody, hl⟩ := hf
  have readable := readable_of_encode hw hbody (Nat.le_trans hl (by decide))
  obtain rfl : a.number :: a.fields = body := by simpa [encode_of_readable readable] using hbody
  exact ⟨_, hbody, hl, map_eq_ok.2 ⟨_, read_fields readable, rfl⟩⟩

theorem fits_of_short {a : Response} (h : a = .success ∨ a = .failure) : a.WellFormed ∧ a.Fits := by
  obtain rfl | rfl := h
  · exact ⟨trivial, [6], rfl, by decide⟩
  · exact ⟨trivial, [5], rfl, by decide⟩

end Response

/-! ### Keys that are held -/

/-- Whether a key is among those that are held. -/
def holds (held : List Identity) (k : PublicKey) : Bool := held.any (·.publicKey = k)

/-- Taking one key away leaves the others. -/
theorem holds_filter (held : List Identity) {k k' : PublicKey} (h : k' ≠ k) :
    holds (held.filter (·.publicKey ≠ k)) k' = holds held k' := by
  unfold holds
  rw [List.any_filter]
  congr 1
  funext i
  by_cases hi : i.publicKey = k'
  · simp [hi, h]
  · simp [hi]

theorem filter_of_not_holds {held : List Identity} {k : PublicKey} (h : holds held k = false) :
    held.filter (·.publicKey ≠ k) = held := by
  apply List.filter_eq_self.2
  intro i hi
  simpa using List.any_eq_false.1 h i hi

theorem filter_filter_ne (held : List Identity) (k : PublicKey) (keys : List PublicKey) :
    (held.filter (·.publicKey ≠ k)).filter (·.publicKey ∉ keys) =
      held.filter (·.publicKey ∉ k :: keys) := by
  rw [List.filter_filter]
  congr 1
  funext i
  simp [Bool.and_comm]

/-! ### An agent that serves -/

namespace MemoryAgent

theorem smooth_opened : opened.Smooth where
  writes := by simp [opened]
  flushes := by simp [opened]

/-- Only a request for the list of keys has a longer answer than one byte. -/
theorem short_answer (a : MemoryAgent) {r : Request} (h : r ≠ .requestIdentities) :
    (a.handle r).1 = .success ∨ (a.handle r).1 = .failure := by
  have added : ∀ x, (a.add x).1 = .success ∨ (a.add x).1 = .failure := by
    intro x
    unfold add
    cases x.privateKey.publicKey with
    | error e => exact .inr rfl
    | ok k => exact .inl rfl
  cases r with
  | requestIdentities => exact absurd rfl h
  | addIdentity x => exact added x
  | removeIdentity k =>
    unfold handle
    dsimp only
    split
    · exact .inl rfl
    · exact .inr rfl
  | removeAllIdentities => exact .inl rfl
  | addConstrained x => exact added x.addition

theorem ofResponse_of_encode {a : Response} {body : Bytes} (h : a.encode = .ok body)
    (hl : body.length < countLimit) :
    Reply.ofResponse a = { bytes := stringBytes body, hangsUp := false } := by
  unfold Reply.ofResponse
  rw [h]
  change (match putString body with | .ok bytes => _ | .error _ => _) = _
  rw [putString_eq_ok_iff.2 ⟨hl, rfl⟩]

/-- A new agent that holds these keys. -/
def holding (held : List Identity) : MemoryAgent := { held }

/-- Of an agent only the keys it holds matter to a request, and nothing else of it changes. -/
theorem handle_eq (a : MemoryAgent) (r : Request) :
    a.handle r =
      (((holding a.held).handle r).1, { a with held := ((holding a.held).handle r).2.held }) := by
  have added : ∀ x, a.add x =
      (((holding a.held).add x).1, { a with held := ((holding a.held).add x).2.held }) := by
    intro x
    unfold add
    cases x.privateKey.publicKey <;> rfl
  cases r with
  | requestIdentities => rfl
  | addIdentity x => exact added x
  | removeIdentity k =>
    unfold handle holding
    by_cases h : a.held.any (·.publicKey = k)
    · simp only [if_pos h]
      rfl
    · simp only [if_neg h]
  | removeAllIdentities => rfl
  | addConstrained x => exact added x.addition

/-- Whatever its constraints, an added key goes to the end and takes the place of an equal one. -/
theorem handle_addRequest (held : List Identity) {x : Addition} {k : PublicKey}
    (h : x.privateKey.publicKey = .ok k) (constraints : List Constraint) :
    (holding held).handle (Session.addRequest x constraints) = (.success,
      holding (held.filter (·.publicKey ≠ k) ++ [{ publicKey := k, comment := x.comment }])) := by
  have added : (holding held).add x = (.success,
      holding (held.filter (·.publicKey ≠ k) ++ [{ publicKey := k, comment := x.comment }])) := by
    unfold add
    rw [h]
    rfl
  unfold Session.addRequest
  split
  · exact added
  · exact added

theorem handle_removeIdentity (held : List Identity) (k : PublicKey) :
    (holding held).handle (.removeIdentity k) =
      (if holds held k then .success else .failure, holding (held.filter (·.publicKey ≠ k))) := by
  unfold handle
  dsimp only
  change (if holds held k then _ else _) = _
  cases h : holds held k with
  | true => rfl
  | false =>
    rw [filter_of_not_holds h]
    rfl

/-- Serves clients that connect to it, and holds these keys. -/
structure Serving (a : MemoryAgent) (held : List Identity) : Prop where
  manner : a.manner = .serve
  listening : a.listening = true
  held : a.held = held

theorem Serving.reply {a : MemoryAgent} {held : List Identity} {r : Request} {message body : Bytes}
    (ha : a.Serving held) (hmessage : Request.decode message = .ok r)
    (hbody : ((holding held).handle r).1.encode = .ok body) (hl : body.length < countLimit) :
    ∃ later : MemoryAgent, later.Serving ((holding held).handle r).2.held ∧
      a.reply message = ({ bytes := stringBytes body, hangsUp := false }, later) := by
  obtain ⟨held, manner, listening, received⟩ := a
  obtain ⟨rfl, rfl, rfl⟩ := ha
  refine ⟨{ held := ((holding held).handle r).2.held, received := message :: received },
    ⟨rfl, rfl, rfl⟩, ?_⟩
  unfold MemoryAgent.reply answer
  simp only [hmessage]
  rw [handle_eq]
  dsimp only
  rw [ofResponse_of_encode hbody hl]

/-- A request reaches an agent that serves, and its answer comes back. -/
theorem Serving.exchange {a : MemoryAgent} {held : List Identity} {r : Request}
    (ha : a.Serving held) (hr : r.WellFormed) (hf : r.Fits)
    (hr' : ((holding held).handle r).1.WellFormed) (hf' : ((holding held).handle r).1.Fits) :
    ∃ later : MemoryAgent, later.Serving ((holding held).handle r).2.held ∧
      MemoryAgent.exchange r a = (.ok ((holding held).handle r).1, later) := by
  obtain ⟨message, hmessage, hl, hdecode⟩ := Request.decode_of_fits hr hf
  obtain ⟨body, hbody, hl', hdecode'⟩ := Response.decode_of_fits hr' hf'
  obtain ⟨sent, hsend, -, hreads, htaken⟩ :=
    Client.perform_send_smooth smooth_opened hmessage (Frame.lt_countLimit hl)
  obtain ⟨later, hlater, hreply⟩ := ha.reply hdecode hbody (Frame.lt_countLimit hl')
  have hcut : Frame.cut? sent.taken = some (message, []) := by
    rw [htaken, ← List.append_nil (stringBytes message)]
    exact Frame.cut?_append (Frame.lt_countLimit hl) []
  have hserve : a.serve sent = (later,
      { sent with reads := [.data (stringBytes body), .silence], taken := [] }) := by
    unfold serve
    rw [hcut, hreads]
    dsimp only
    rw [hreply]
    rfl
  let answered : Cursor :=
    { stream := { sent with reads := [.data (stringBytes body), .silence], taken := [] } }
  have said : answered.stream.reads = Stream.pieces [stringBytes body] ++ [.silence] := rfl
  have whole : [stringBytes body].flatten = stringBytes body ++ [] := by simp
  obtain ⟨left, -, hreceive⟩ := Client.perform_receive_pieces hl' said whole
  refine ⟨later, hlater, ?_⟩
  unfold MemoryAgent.exchange
  rw [hsend]
  dsimp only
  rw [hserve]
  dsimp only
  rw [hreceive, hdecode']
  rfl

end MemoryAgent

end SshKeyring
