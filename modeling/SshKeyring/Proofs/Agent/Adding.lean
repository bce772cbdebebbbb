import SshKeyring.Proofs.Agent.Exchange
import SshKeyring.Proofs.Agent.Keyring
import SshKeyring.Proofs.Key.RoundTrip

/-! What adding a key puts on a stream: a count, a number, the key and its comment as they are
handed out for an agent, and a record for each thing that is asked of the agent. An agent that reads
the message finds the key, the comment and what was asked, no less and no more, so that no two
messages are alike that ask for something else. -/

namespace SshKeyring

open Wire

/-! ### Over a stream -/

/-- An agent behind a stream, with a new client for each request. -/
def Stream.link : Link Stream where
  obstacle _ _ := none
  exchange r stream :=
    let (result, c) := (Client.exchange r).perform { stream }
    (result, c.stream)

namespace Client

/-- A message that can be written down goes out as far as the stream takes it. -/
theorem taken_of_send {r : Request} {body : Bytes} (hr : r.encode = .ok body)
    (hl : body.length < countLimit) (stream : Stream) :
    ∃ sent, sent <+: stringBytes body ∧
      ((∀ e ∈ stream.writes, Stream.GoesOn Cursor.policy e) → sent = stringBytes body) ∧
        ((send r).perform { stream }).2.stream.taken = stream.taken ++ sent := by
  obtain ⟨sent, front, whole, taken⟩ :=
    Stream.exists_taken_of_send Cursor.policy (stringBytes body) stream
  refine ⟨sent, front, fun h => whole (Stream.fault_of_goesOn [] _ h).1, ?_⟩
  rw [perform_send_of_encode hr hl, perform_onCursor]
  obtain ⟨flushes, h⟩ := Cursor.flush_snd { stream, pending := stringBytes body }
  rw [h]
  exact taken

theorem taken_of_exchange (r : Request) (stream : Stream) :
    ((exchange r).perform { stream }).2.stream.taken =
      ((send r).perform { stream }).2.stream.taken := by
  unfold exchange
  rw [Steps.perform_bind]
  rcases (send r).perform { stream } with ⟨_ | _, c⟩
  · rfl
  · obtain ⟨reads, h⟩ := receive_snd c
    dsimp only
    rw [h]

end Client

/-! ### The message of an added key -/

namespace AddOptions

variable (o : AddOptions)

/-- The number of the message: a key of which nothing is asked goes without constraints. -/
def number : UInt8 := if o.lifetime = 0 ∧ o.confirm = false then 17 else 25

/-- What stands behind the comment: a record for a lifetime that is not zero, and one if each use is
to be confirmed. -/
def records : Bytes :=
  (if o.lifetime = 0 then [] else 1 :: putWord o.lifetime) ++ if o.confirm then [2] else []

/-- The message that adds a key which is handed out as these bytes. -/
def message (blob : Bytes) : Bytes := o.number :: (blob ++ o.records)

variable {o}

theorem constraints_eq_nil_iff : o.constraints = [] ↔ o.lifetime = 0 ∧ o.confirm = false := by
  cases h : o.confirm <;> simp [constraints, h]

theorem flatMap_constraints : o.constraints.flatMap Constraint.encode = o.records := by
  unfold constraints records
  split <;> split <;> simp [Constraint.encode, Constraint.code]

theorem lifetime_mem_constraints {seconds : UInt32} :
    .lifetime seconds ∈ o.constraints ↔ seconds = o.lifetime ∧ seconds ≠ 0 := by
  unfold constraints
  by_cases h : o.lifetime = 0
  · simp +contextual [h]
  · simp +contextual [h]

theorem confirm_mem_constraints : .confirm ∈ o.constraints ↔ o.confirm = true := by
  simp [constraints]

/-- What is asked can be told from the constraints. -/
theorem eq_of_constraints {o' : AddOptions} (h : o.constraints = o'.constraints) :
    o.lifetime = o'.lifetime ∧ o.confirm = o'.confirm := by
  have same : ∀ seconds, seconds = o.lifetime ∧ seconds ≠ 0 ↔
      seconds = o'.lifetime ∧ seconds ≠ 0 := fun seconds => by
    rw [← lifetime_mem_constraints, h, lifetime_mem_constraints]
  constructor
  · by_cases none : o.lifetime = 0
    · by_contra ne
      have given : o'.lifetime ≠ 0 := fun h' => ne (none.trans h'.symm)
      exact ne ((same o'.lifetime).2 ⟨rfl, given⟩).1.symm
    · exact ((same o.lifetime).1 ⟨rfl, none⟩).1
  · rw [Bool.eq_iff_iff, ← confirm_mem_constraints, h, confirm_mem_constraints]

end AddOptions

namespace Session

section Message

variable {x x' : Addition} {o o' : AddOptions}

theorem number_addRequest (x : Addition) (o : AddOptions) :
    (addRequest x o.constraints).number = o.number := by
  unfold addRequest AddOptions.number
  simp only [AddOptions.constraints_eq_nil_iff]
  split <;> rfl

theorem fields_addRequest (x : Addition) (o : AddOptions) :
    (addRequest x o.constraints).fields = x.wire ++ o.records := by
  rw [← AddOptions.flatMap_constraints]
  unfold addRequest
  split
  · next h => rw [h, List.flatMap_nil, List.append_nil, Request.fields]
  · rfl

theorem readable_addRequest (h : x.Readable) (constraints : List Constraint) :
    (addRequest x constraints).Readable := by
  unfold addRequest
  split
  · exact h
  · exact h

theorem encode_addRequest (h : x.Readable) (o : AddOptions) :
    (addRequest x o.constraints).encode = .ok (o.message x.wire) := by
  rw [Request.encode_of_readable (readable_addRequest h _), number_addRequest, fields_addRequest,
    AddOptions.message]

theorem decode_message (h : x.Readable) (o : AddOptions) :
    Request.decode (o.message x.wire) = .ok (addRequest x o.constraints) := by
  have read := Request.read_fields (readable_addRequest h o.constraints)
  rw [number_addRequest, fields_addRequest] at read
  rw [Request.decode, AddOptions.message, read]
  rfl

/-- What is added and what is asked can be told from the request. -/
theorem eq_of_addRequest (h : addRequest x o.constraints = addRequest x' o'.constraints) :
    x = x' ∧ o.lifetime = o'.lifetime ∧ o.confirm = o'.confirm := by
  unfold addRequest at h
  split at h
  · next hn =>
    split at h
    · next hn' =>
      exact ⟨Request.addIdentity.inj h, AddOptions.eq_of_constraints (hn.trans hn'.symm)⟩
    · cases h
  · split at h
    · cases h
    · obtain ⟨hx, hc⟩ := ConstrainedAddition.mk.inj (Request.addConstrained.inj h)
      exact ⟨hx, AddOptions.eq_of_constraints hc⟩

end Message

end Session

/-! ### Its length -/

namespace Wire

theorem stringsSize_le {parts : List Bytes} {n : Nat} (h : ∀ b ∈ parts, b.length ≤ n) :
    stringsSize parts ≤ parts.length * (4 + n) := by
  induction parts with
  | nil => exact Nat.zero_le _
  | cons b parts ih =>
    have rest := ih fun b hb => h b (List.mem_cons_of_mem _ hb)
    have first := h b List.mem_cons_self
    simp only [stringsSize, totalSize, List.foldr_cons, stringSize, List.length_cons,
      Nat.succ_mul] at rest ⊢
    omega

end Wire

theorem PrivateKey.length_wire_le {p : PrivateKey} (h : p.Readable) :
    p.wire.length ≤ 10 * (4 + maxLength) + 1 := by
  obtain ⟨hw, short⟩ := h
  obtain ⟨count, fits⟩ := PrivateKey.wellFormed_iff.1 hw
  have name := p.type.length_name_le
  have parts := stringsSize_le short
  have few : p.type.privateParts ≤ 6 := by
    cases p.type <;> simp [KeyType.privateParts]
  have preamble : p.preamble.length ≤ 3 * (4 + maxLength) + 1 := by
    unfold PrivateKey.Fits at fits
    split at fits
    · obtain ⟨strings, flags, hn, hs, hp⟩ := fits
      have size := stringsSize_le hs
      rw [hp, List.length_append, length_flatMap_stringBytes, List.length_singleton]
      rw [hn] at size
      omega
    · simp [fits]
  have all : p.parts.length * (4 + maxLength) ≤ 6 * (4 + maxLength) :=
    Nat.mul_le_mul_right _ (count ▸ few)
  rw [PrivateKey.wire, KeyType.wire, List.length_append, List.length_append, length_stringBytes,
    length_flatMap_stringBytes, stringSize]
  omega

theorem AddOptions.length_records_le (o : AddOptions) : o.records.length ≤ 6 := by
  unfold records
  split <;> split <;> simp [length_putWord]

theorem Addition.length_message_lt {x : Addition} (h : x.Readable) (o : AddOptions) :
    (o.message x.wire).length < countLimit := by
  have key := PrivateKey.length_wire_le h.1
  have comment := h.2
  have records := o.length_records_le
  rw [AddOptions.message, Addition.wire, List.length_cons, List.length_append, List.length_append,
    length_stringBytes, stringSize]
  unfold maxLength at *
  unfold countLimit
  omega

/-! ### Keys -/

/-- An unlocked key with the private half, of which no string is longer than readers take it. -/
structure Key.Sendable (key : Key) (p : PrivateKey) : Prop where
  wellFormed : key.WellFormed
  secret : key.secret = .unlocked p
  parts : ∀ b ∈ p.parts, b.length ≤ maxLength
  comment : (Utf8.encode key.comment).length ≤ maxLength

namespace Key.Sendable

variable {key : Key} {p : PrivateKey}

theorem readable (h : key.Sendable p) :
    Addition.Readable { privateKey := p, comment := key.comment } :=
  ⟨⟨(h.wellFormed.unlocked p h.secret).2, h.parts⟩, h.comment⟩

theorem privateBlob (h : key.Sendable p) :
    key.privateBlob = .ok (Addition.wire { privateKey := p, comment := key.comment }) := by
  have encoded := PrivateKey.encode_of_readable h.readable.1
  have comment := putText_eq_ok_iff.2 ⟨lt_countLimit h.comment, rfl⟩
  exact bind_eq_ok.2 ⟨p, privateKey_eq_ok_iff.2 h.secret, bind_eq_ok.2
    ⟨_, mapError_eq_ok.2 encoded, bind_eq_ok.2 ⟨_, mapError_eq_ok.2 comment, rfl⟩⟩⟩

theorem exists_publicKey (h : key.Sendable p) : ∃ k, key.publicKey = .ok k := by
  cases hk : key.publicHalf with
  | some k => exact ⟨k, publicKey_eq_ok_iff.2 hk⟩
  | none =>
    have locked := (h.wellFormed.publicHalf_none.1 hk).1
    simp [isLocked, h.secret] at locked

end Key.Sendable

namespace Session

/-- Whatever comes back, the stream is left as by the one exchange that adds the key. -/
theorem stream_add {key : Key} {p : PrivateKey} (h : key.Sendable p) (o : AddOptions) {s : Session}
    (hs : s.Connects) (stream : Stream) :
    ((add Stream.link key o).perform (s, stream)).2.2 =
      ((Client.exchange (addRequest { privateKey := p, comment := key.comment }
        o.constraints)).perform { stream }).2.stream := by
  obtain ⟨k, hk⟩ := h.exists_publicKey
  rw [perform_add, hk, Key.privateKey_eq_ok_iff.2 h.secret]
  dsimp only
  rw [perform_command, perform_exchange, reach_of_connects hs fun _ => rfl]
  dsimp only [Stream.link]
  cases ((Client.exchange _).perform { stream }).1.bind Response.accepted <;> rfl

/-- What is sent to add an unlocked key is one frame, as far as the stream takes it: the count, the
number, the bytes that the key is handed out as and the records of what is asked. An agent reads the
message as a request to add the key and its comment with just those constraints, so that frames are
alike only if key, comment, lifetime and confirmation are. -/
theorem taken_add {key : Key} {p : PrivateKey} (h : key.Sendable p) (o : AddOptions) :
    ∃ blob, key.privateBlob = .ok blob ∧ (o.message blob).length < countLimit ∧
      (∀ (s : Session) (stream : Stream), s.Connects →
        ∃ sent, ((add Stream.link key o).perform (s, stream)).2.2.taken = stream.taken ++ sent ∧
          sent <+: stringBytes (o.message blob) ∧
          ((∀ e ∈ stream.writes, Stream.GoesOn Cursor.policy e) →
            sent = stringBytes (o.message blob))) ∧
      Request.decode (o.message blob) =
        .ok (if o.lifetime = 0 ∧ o.confirm = false then
            .addIdentity { privateKey := p, comment := key.comment }
          else
            .addConstrained {
              addition := { privateKey := p, comment := key.comment }
              constraints := (if o.lifetime = 0 then [] else [.lifetime o.lifetime]) ++
                if o.confirm then [.confirm] else [] }) ∧
      ∀ (key' : Key) (p' : PrivateKey) (o' : AddOptions) (blob' : Bytes), key'.Sendable p' →
        key'.privateBlob = .ok blob' →
          stringBytes (o.message blob) = stringBytes (o'.message blob') →
            p = p' ∧ key.comment = key'.comment ∧ o.lifetime = o'.lifetime ∧
              o.confirm = o'.confirm := by
  have length := Addition.length_message_lt h.readable o
  refine ⟨_, h.privateBlob, length, fun s stream hs => ?_, ?_, fun key' p' o' blob' h' hb' he => ?_⟩
  · obtain ⟨sent, front, whole, taken⟩ :=
      Client.taken_of_send (encode_addRequest h.readable o) length stream
    refine ⟨sent, ?_, front, whole⟩
    rw [stream_add h o hs, Client.taken_of_exchange, taken]
  · rw [decode_message h.readable, addRequest]
    simp only [AddOptions.constraints_eq_nil_iff]
    rfl
  · obtain rfl := Except.ok.inj (h'.privateBlob.symm.trans hb')
    -- the counts take four bytes each, so the messages are the same
    obtain ⟨-, same⟩ := List.append_inj he (by rw [length_putWord, length_putWord])
    have decoded := decode_message h.readable o
    rw [same, decode_message h'.readable] at decoded
    obtain ⟨hx, asked⟩ := eq_of_addRequest (Except.ok.inj decoded.symm)
    obtain ⟨hp, hc⟩ := Addition.mk.inj hx
    exact ⟨hp, hc, asked⟩

theorem byteKey_sendable : byteKey.Sendable shortAddition.addition.privateKey where
  wellFormed := byteKey_paired.wellFormed
  secret := rfl
  parts := by decide
  comment := by decide

/-- Confirmed at each use, for an hour. -/
def hourly : AddOptions := { confirm := true, lifetime := 3600 }

/-- A stream that takes three bytes at first, and is interrupted before it takes the others. -/
def interrupted : Stream where
  writes := [.accept 3, .fail { kind := .interrupted, text := "again" }]

theorem byteKey_taken_add :
    ∃ blob, byteKey.privateBlob = .ok blob ∧
      ((add Stream.link byteKey hourly).perform
          (ofConfig { socket := some "/agent" } none, interrupted)).2.2.taken =
        stringBytes (25 :: (blob ++ [1, 0, 0, 14, 16, 2])) ∧
      Request.decode (25 :: (blob ++ [1, 0, 0, 14, 16, 2])) = .ok (.addConstrained shortAddition) ∧
      stringBytes (hourly.message blob) ≠ stringBytes (AddOptions.message {} blob) := by
  obtain ⟨blob, hb, -, sends, decodes, alike⟩ := taken_add byteKey_sendable hourly
  have connects : (ofConfig { socket := some "/agent" } none).Connects :=
    ⟨"/agent", by decide, by decide +kernel⟩
  have goesOn : ∀ e ∈ interrupted.writes, Stream.GoesOn Cursor.policy e := by
    simp [interrupted, Stream.GoesOn, Cursor.policy]
  obtain ⟨sent, taken, -, whole⟩ := sends _ interrupted connects
  rw [whole goesOn] at taken
  refine ⟨blob, hb, taken, decodes, fun h => ?_⟩
  obtain ⟨-, -, lifetime, -⟩ := alike byteKey _ {} blob byteKey_sendable hb h
  exact absurd lifetime (by decide)

end Session

end SshKeyring
