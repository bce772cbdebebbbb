import SshKeyring.Key.Private
import SshKeyring.Proofs.Wire

/-! The two halves of a key on the wire: what is written of them, that it is read back and that
nothing else is read, and that whatever is read or put together has the strings its type calls
for. No two halves are written alike, also where their strings are too long for a reader. A private
half gives a public one, of those of its strings that are public. -/

namespace SshKeyring

open Wire

namespace KeyType

/-- The name of a type as it stands on the wire. -/
def wire (t : KeyType) : Bytes := stringBytes (Utf8.encode t.name)

theorem length_name_le (t : KeyType) : (Utf8.encode t.name).length ≤ maxLength := by
  rcases t with _ | _ | c | _ | _
  case ecdsa => cases c <;> decide
  all_goals decide

theorem length_name_lt (t : KeyType) : (Utf8.encode t.name).length < countLimit :=
  lt_countLimit t.length_name_le

theorem ofBytes_name (t : KeyType) : ofBytes (Utf8.encode t.name) = .ok t := by
  rw [ofBytes, Utf8.decode?_encode]
  simp only [ofName, ofName?_name]

theorem ofBytes_eq_ok_iff {b : Bytes} {t : KeyType} :
    ofBytes b = .ok t ↔ b = Utf8.encode t.name := by
  constructor
  · intro h
    unfold ofBytes at h
    split at h
    · next s hs =>
      unfold ofName at h
      split at h
      · next u hu =>
        cases h
        rw [name_of_ofName? hu, Utf8.encode_of_decode? hs]
      · cases h
    · cases h
  · rintro rfl
    exact ofBytes_name t

/-- A type is read off its name and nothing else. -/
theorem read_exact : read.Exact (fun _ => True) wire := by
  intro input t rest
  constructor
  · intro h
    obtain ⟨name, left, hname, found⟩ := (Reader.bind_eq_ok_iff _ _ _ _).1 h
    obtain ⟨-, rfl⟩ := (string_exact.mapError _ _ _ _).1 hname
    cases ht : ofBytes name with
    | error e =>
      rw [ht] at found
      cases found
    | ok u =>
      rw [ht] at found
      cases found
      rw [ofBytes_eq_ok_iff.1 ht]
      exact ⟨trivial, rfl⟩
  · rintro ⟨-, rfl⟩
    rw [read, Reader.bind_eq_ok_iff]
    refine ⟨_, rest, (string_exact.mapError _).read t.length_name_le rest, ?_⟩
    rw [ofBytes_name]
    rfl

/-- The name of a type tells where it ends. -/
theorem wire_append_inj {t u : KeyType} {r s : Bytes} :
    t.wire ++ r = u.wire ++ s ↔ t = u ∧ r = s := by
  rw [wire, wire, stringBytes_append_inj t.length_name_lt u.length_name_lt]
  refine and_congr_left fun _ => ⟨fun h => ?_, by rintro rfl; rfl⟩
  have named := ofBytes_name t
  rw [h, ofBytes_name, Except.ok.injEq] at named
  exact named.symm

end KeyType

namespace PublicKey

def wire (k : PublicKey) : Bytes := k.type.wire ++ k.parts.flatMap stringBytes

theorem encode_eq_ok_iff {k : PublicKey} {out : Bytes} :
    k.encode = .ok out ↔ (∀ b ∈ k.parts, b.length < countLimit) ∧ out = k.wire := by
  simp only [encode, bind_eq_ok, putText_eq_ok_iff, putStrings_eq_ok_iff, pure_eq_ok]
  constructor
  · rintro ⟨_, ⟨-, rfl⟩, _, ⟨hp, rfl⟩, rfl⟩
    exact ⟨hp, rfl⟩
  · rintro ⟨hp, rfl⟩
    exact ⟨_, ⟨k.type.length_name_lt, rfl⟩, _, ⟨hp, rfl⟩, rfl⟩

theorem length_wire (k : PublicKey) : k.wire.length = k.encodedLength := by
  rw [wire, KeyType.wire, List.length_append, length_stringBytes, length_flatMap_stringBytes,
    encodedLength]

/-- A public half that readers take: well-formed and without too long a string. -/
def Readable (k : PublicKey) : Prop := k.WellFormed ∧ ∀ b ∈ k.parts, b.length ≤ maxLength

theorem read_exact : read.Exact Readable wire := by
  have parts := fun t : KeyType =>
    (((string_exact.times t.publicParts).mapError KeyError.ofWire).bind
      (fun parts _ => Reader.pure_exact { type := t, parts : PublicKey }) PublicKey.parts
      (by rintro _ _ rfl; rfl))
  have all := KeyType.read_exact.bind (fun t _ => parts t) PublicKey.type (by
    rintro _ _ ⟨-, h⟩
    rw [h])
  refine all.congr (fun k => ?_) (fun k _ => ?_)
  · simp [Readable, WellFormed]
  · rw [wire, List.append_nil]

theorem length_le_of_mem_parts {k : PublicKey} {b : Bytes} (h : b ∈ k.parts) :
    b.length ≤ k.wire.length := by
  have sub := length_le_of_mem h
  rw [wire, List.length_append]
  omega

/-- The strings of a blob that is not too long for a string are not too long either. -/
theorem readable_of_length_le {k : PublicKey} (hk : k.WellFormed) (hl : k.wire.length ≤ maxLength) :
    k.Readable :=
  ⟨hk, fun _ hb => Nat.le_trans (length_le_of_mem_parts hb) hl⟩

theorem encode_of_readable {k : PublicKey} (hk : k.Readable) : k.encode = .ok k.wire :=
  encode_eq_ok_iff.2 ⟨fun b hb => lt_countLimit (hk.2 b hb), rfl⟩

theorem ofBlob_eq_ok_iff {blob : Bytes} {k : PublicKey} :
    ofBlob blob = .ok k ↔ k.Readable ∧ blob = k.wire :=
  read_exact.whole_eq_ok_iff _ _ _

/-- A blob that is not too long for a string is read back. -/
theorem ofBlob_wire {k : PublicKey} (hk : k.WellFormed) (hl : k.wire.length ≤ maxLength) :
    ofBlob k.wire = .ok k :=
  ofBlob_eq_ok_iff.2 ⟨readable_of_length_le hk hl, rfl⟩

theorem ofParts_eq_ok_iff {type : KeyType} {parts : List Bytes} {k : PublicKey} :
    ofParts type parts = .ok k ↔ parts.length = type.publicParts ∧ k = { type, parts } := by
  unfold ofParts
  by_cases h : parts.length = type.publicParts
  · simp [h, eq_comm]
  · simp [h]

/-- No two keys have the same blob, whether or not they have the parts that their types call for. -/
theorem wire_inj {a b : PublicKey} (ha : ∀ p ∈ a.parts, p.length < countLimit)
    (hb : ∀ p ∈ b.parts, p.length < countLimit) : a.wire = b.wire ↔ a = b := by
  rw [wire, wire, KeyType.wire_append_inj, flatMap_stringBytes_inj ha hb, PublicKey.mk.injEq]

end PublicKey

namespace PrivateKey

def wire (k : PrivateKey) : Bytes := k.type.wire ++ k.preamble ++ k.parts.flatMap stringBytes

theorem encode_eq_ok_iff {k : PrivateKey} {out : Bytes} :
    k.encode = .ok out ↔ (∀ b ∈ k.parts, b.length < countLimit) ∧ out = k.wire := by
  simp only [encode, bind_eq_ok, putText_eq_ok_iff, putStrings_eq_ok_iff, pure_eq_ok]
  constructor
  · rintro ⟨_, ⟨-, rfl⟩, _, ⟨hp, rfl⟩, rfl⟩
    exact ⟨hp, rfl⟩
  · rintro ⟨hp, rfl⟩
    exact ⟨_, ⟨k.type.length_name_lt, rfl⟩, _, ⟨hp, rfl⟩, rfl⟩

theorem length_le_of_mem_parts {k : PrivateKey} {b : Bytes} (h : b ∈ k.parts) :
    b.length ≤ k.wire.length := by
  have sub := length_le_of_mem h
  rw [wire, List.length_append]
  omega

/-! ### The preamble of a security key -/

/-- Three strings and a byte of flags. -/
def IsPreamble (b : Bytes) : Prop :=
  ∃ (strings : List Bytes) (flags : UInt8), strings.length = 3 ∧
    (∀ s ∈ strings, s.length ≤ maxLength) ∧ b = strings.flatMap stringBytes ++ [flags]

/-- What stands between the type name and the parts. -/
def Fits (type : KeyType) (preamble : Bytes) : Prop :=
  if type.isSecurityKey then IsPreamble preamble else preamble = []

theorem wellFormed_iff {k : PrivateKey} :
    k.WellFormed ↔ k.parts.length = k.type.privateParts ∧ Fits k.type k.preamble := by
  unfold WellFormed Fits
  split
  · refine and_congr_right fun _ => ?_
    constructor
    · rintro ⟨strings, b, flags, hn, hs, hb, hp⟩
      obtain ⟨-, rfl⟩ := putStrings_eq_ok_iff.1 hb
      exact ⟨strings, flags, hn, hs, hp⟩
    · rintro ⟨strings, flags, hn, hs, hp⟩
      exact ⟨strings, _, flags, hn, hs,
        putStrings_eq_ok_iff.2 ⟨fun s hm => lt_countLimit (hs s hm), rfl⟩, hp⟩
  · rfl

theorem readPreamble_exact : readPreamble.Exact IsPreamble id := by
  intro input preamble rest
  simp only [readPreamble, Reader.bind_eq_ok_iff]
  constructor
  · rintro ⟨strings, left, hr, flags, left', hf, h⟩
    obtain ⟨⟨hn, hs⟩, rfl⟩ := (string_exact.times 3 _ _ _).1 hr
    obtain ⟨-, rfl⟩ := (byte_exact _ _ _).1 hf
    have hb : putStrings strings = .ok (strings.flatMap stringBytes) :=
      putStrings_eq_ok_iff.2 ⟨fun s hm => lt_countLimit (hs s hm), rfl⟩
    rw [hb] at h
    cases h
    exact ⟨⟨strings, flags, hn, hs, rfl⟩, by simp⟩
  · rintro ⟨⟨strings, flags, hn, hs, rfl⟩, rfl⟩
    refine ⟨strings, [flags] ++ rest, ?_, flags, rest, byte_exact.read trivial rest, ?_⟩
    · rw [id, List.append_assoc]
      exact (string_exact.times 3).read ⟨hn, hs⟩ _
    · rw [putStrings_eq_ok_iff.2 ⟨fun s hm => lt_countLimit (hs s hm), rfl⟩]
      rfl

theorem readPreambleOf_exact (type : KeyType) : (readPreambleOf type).Exact (Fits type) id := by
  unfold readPreambleOf
  by_cases h : type.isSecurityKey
  · have fits : Fits type = IsPreamble := by
      funext b
      rw [Fits, if_pos h]
    rw [if_pos h, fits]
    exact readPreamble_exact.mapError _
  · intro input b rest
    rw [if_neg h, Fits, if_neg h, Reader.pure_apply, Except.ok.injEq, Prod.mk.injEq]
    constructor
    · rintro ⟨rfl, rfl⟩
      exact ⟨rfl, rfl⟩
    · rintro ⟨rfl, rfl⟩
      exact ⟨rfl, rfl⟩

/-! ### The whole half -/

/-- A private half that readers take: well-formed and without too long a string. -/
def Readable (k : PrivateKey) : Prop := k.WellFormed ∧ ∀ b ∈ k.parts, b.length ≤ maxLength

theorem read_exact : read.Exact Readable wire := by
  have parts := fun (t : KeyType) (preamble : Bytes) =>
    (((string_exact.times t.privateParts).mapError KeyError.ofWire).bind
      (fun parts _ => Reader.pure_exact { type := t, preamble, parts : PrivateKey })
      PrivateKey.parts
      (by rintro _ _ rfl; rfl))
  have preamble := fun t : KeyType =>
    (readPreambleOf_exact t).bind (fun preamble _ => parts t preamble) PrivateKey.preamble (by
      rintro _ _ ⟨-, h⟩
      rw [h])
  have all := KeyType.read_exact.bind (fun t _ => preamble t) PrivateKey.type (by
    rintro _ _ ⟨-, -, h⟩
    rw [h])
  refine all.congr (fun k => ?_) (fun k _ => ?_)
  · simp only [true_and, and_true, Readable, wellFormed_iff]
    rw [and_left_comm, and_assoc]
  · simp only [wire, id, List.append_nil, List.append_assoc]

theorem encode_of_readable {k : PrivateKey} (hk : k.Readable) : k.encode = .ok k.wire :=
  encode_eq_ok_iff.2 ⟨fun b hb => lt_countLimit (hk.2 b hb), rfl⟩

theorem ofParts_eq_ok_iff {type : KeyType} {parts : List Bytes} {k : PrivateKey} :
    ofParts type parts = .ok k ↔ type.isSecurityKey = false ∧ parts.length = type.privateParts ∧
      k = { type, preamble := [], parts } := by
  unfold ofParts
  by_cases hs : type.isSecurityKey
  · simp [hs]
  · by_cases h : parts.length = type.privateParts
    · simp [hs, h, eq_comm]
    · simp [hs, h]

theorem wellFormed_of_ofParts {type : KeyType} {parts : List Bytes} {k : PrivateKey}
    (h : ofParts type parts = .ok k) : k.WellFormed := by
  obtain ⟨hs, hn, rfl⟩ := ofParts_eq_ok_iff.1 h
  refine wellFormed_iff.2 ⟨hn, ?_⟩
  rw [Fits, if_neg (by simp [hs])]

/-- The preambles of one type end where their strings and the flags do. -/
theorem preamble_append_inj {type : KeyType} {p q r s : Bytes} (hp : Fits type p)
    (hq : Fits type q) : p ++ r = q ++ s ↔ p = q ∧ r = s := by
  by_cases hsk : type.isSecurityKey
  · rw [Fits, if_pos hsk] at hp hq
    obtain ⟨strings, flags, hn, hs, rfl⟩ := hp
    obtain ⟨strings', flags', hn', hs', rfl⟩ := hq
    have short : ∀ b ∈ strings, b.length < countLimit := fun b hb => lt_countLimit (hs b hb)
    have short' : ∀ b ∈ strings', b.length < countLimit := fun b hb => lt_countLimit (hs' b hb)
    rw [List.append_assoc, List.append_assoc,
      flatMap_stringBytes_append_inj short short' (hn.trans hn'.symm),
      flatMap_stringBytes_append_inj short short' (hn.trans hn'.symm)]
    simp [and_assoc]
  · rw [Fits, if_neg hsk] at hp hq
    rw [hp, hq]
    simp

/-- No two private halves are written alike. -/
theorem wire_inj {a b : PrivateKey} (ha : a.WellFormed) (hb : b.WellFormed)
    (hs : ∀ p ∈ a.parts, p.length < countLimit) (hs' : ∀ p ∈ b.parts, p.length < countLimit) :
    a.wire = b.wire ↔ a = b := by
  constructor
  · intro h
    obtain ⟨-, fits⟩ := wellFormed_iff.1 ha
    obtain ⟨-, fits'⟩ := wellFormed_iff.1 hb
    rw [wire, wire, List.append_assoc, List.append_assoc, KeyType.wire_append_inj] at h
    obtain ⟨htype, h⟩ := h
    rw [← htype] at fits'
    rw [preamble_append_inj fits fits', flatMap_stringBytes_inj hs hs'] at h
    obtain ⟨hpreamble, hparts⟩ := h
    exact (PrivateKey.mk.injEq ..).mpr ⟨htype, hpreamble, hparts⟩
  · rintro rfl
    rfl

/-! ### The public half of a private one -/

/-- A private half with the strings that its type calls for, and those of them that are public, in
the order of a public half. Security keys have the public ones in front of the flags. -/
inductive PublicStrings : PrivateKey → List Bytes → Prop
  | dss (p q g y x : Bytes) :
      PublicStrings { type := .dss, preamble := [], parts := [p, q, g, y, x] } [p, q, g, y]
  | rsa (n e d inverse p q : Bytes) :
      PublicStrings { type := .rsa, preamble := [], parts := [n, e, d, inverse, p, q] } [e, n]
  | ecdsa (curve : Curve) (name point scalar : Bytes) :
      PublicStrings { type := .ecdsa curve, preamble := [], parts := [name, point, scalar] }
        [name, point]
  | ed25519 (point secret : Bytes) :
      PublicStrings { type := .ed25519, preamble := [], parts := [point, secret] } [point]
  | skEcdsaP256 (name point application handle reserved : Bytes) (flags : UInt8) {front : Bytes}
      (encoded : putStrings [name, point, application] = .ok front)
      (short : ∀ s ∈ [name, point, application], s.length ≤ maxLength) :
      PublicStrings
        { type := .skEcdsaP256, preamble := front ++ [flags], parts := [handle, reserved] }
        [name, point, application]

theorem exists_publicStrings {k : PrivateKey} (h : k.WellFormed) :
    ∃ strings, PublicStrings k strings := by
  obtain ⟨type, preamble, parts⟩ := k
  obtain ⟨hn, hp⟩ := h
  cases type with
  | dss =>
    obtain rfl : preamble = [] := hp
    match parts, hn with
    | [p, q, g, y, x], _ => exact ⟨_, .dss p q g y x⟩
  | rsa =>
    obtain rfl : preamble = [] := hp
    match parts, hn with
    | [n, e, d, inverse, p, q], _ => exact ⟨_, .rsa n e d inverse p q⟩
  | ecdsa curve =>
    obtain rfl : preamble = [] := hp
    match parts, hn with
    | [name, point, scalar], _ => exact ⟨_, .ecdsa curve name point scalar⟩
  | ed25519 =>
    obtain rfl : preamble = [] := hp
    match parts, hn with
    | [point, secret], _ => exact ⟨_, .ed25519 point secret⟩
  | skEcdsaP256 =>
    obtain ⟨strings, front, flags, hs, short, encoded, rfl⟩ := hp
    match parts, hn, strings, hs with
    | [handle, reserved], _, [name, point, application], _ =>
      exact ⟨_, .skEcdsaP256 name point application handle reserved flags encoded short⟩

namespace PublicStrings

variable {k : PrivateKey} {strings : List Bytes}

theorem length_eq (h : PublicStrings k strings) : strings.length = k.type.publicParts := by
  cases h <;> rfl

/-- The public strings are found again, also those that were encoded in a preamble. -/
theorem publicKey_eq (h : PublicStrings k strings) :
    k.publicKey = .ok { type := k.type, parts := strings } := by
  cases h with
  | dss | rsa | ecdsa | ed25519 => rfl
  | skEcdsaP256 _ _ _ _ _ flags encoded short =>
    obtain ⟨-, rfl⟩ := putStrings_eq_ok_iff.1 encoded
    have preamble := ((string_exact.times 3).mapError KeyError.ofWire).read ⟨rfl, short⟩ [flags]
    simp only [publicKey, preamble]
    rfl

end PublicStrings

/-- Every well-formed private half gives a public half, of its type and well-formed. -/
theorem exists_publicKey {k : PrivateKey} (hk : k.WellFormed) :
    ∃ p, k.publicKey = .ok p ∧ p.type = k.type ∧ p.WellFormed := by
  obtain ⟨strings, found⟩ := exists_publicStrings hk
  exact ⟨_, found.publicKey_eq, rfl, found.length_eq⟩

theorem publicKey_eq_ok {k : PrivateKey} {p : PublicKey} (hk : k.WellFormed)
    (h : k.publicKey = .ok p) : p.type = k.type ∧ p.WellFormed := by
  obtain ⟨derived, hd, fits⟩ := exists_publicKey hk
  obtain rfl : derived = p := by simpa [hd] using h
  exact fits

end PrivateKey

/-! ### Exactness -/

/-- Either half of a key is read off an encoding of it and off nothing else: what is read is
well-formed, none of its strings is too long for a reader, and the bytes that were used up for it
are those that are written of it. A blob holds one public half and nothing more, and likewise for
the bytes of a private half. -/
theorem read_halves_iff :
    (∀ input k rest, PublicKey.read input = .ok (k, rest) ↔
      k.WellFormed ∧ (∀ b ∈ k.parts, b.length ≤ maxLength) ∧
        ∃ front, k.encode = .ok front ∧ input = front ++ rest) ∧
    (∀ input k rest, PrivateKey.read input = .ok (k, rest) ↔
      k.WellFormed ∧ (∀ b ∈ k.parts, b.length ≤ maxLength) ∧
        ∃ front, k.encode = .ok front ∧ input = front ++ rest) ∧
    (∀ blob k, PublicKey.ofBlob blob = .ok k ↔
      k.WellFormed ∧ (∀ b ∈ k.parts, b.length ≤ maxLength) ∧ k.encode = .ok blob) ∧
    (∀ b k, PrivateKey.ofBytes b = .ok k ↔
      k.WellFormed ∧ (∀ b ∈ k.parts, b.length ≤ maxLength) ∧ k.encode = .ok b) := by
  refine ⟨fun input k rest => ?_, fun input k rest => ?_, fun blob k => ?_, fun b k => ?_⟩
  · rw [PublicKey.read_exact.eq_ok_iff_of_write fun _ => PublicKey.encode_of_readable,
      PublicKey.Readable, and_assoc]
  · rw [PrivateKey.read_exact.eq_ok_iff_of_write fun _ => PrivateKey.encode_of_readable,
      PrivateKey.Readable, and_assoc]
  · rw [PublicKey.ofBlob, PublicKey.read_exact.whole_eq_ok_iff_of_write fun _ =>
      PublicKey.encode_of_readable, PublicKey.Readable, and_assoc]
  · rw [PrivateKey.ofBytes, PrivateKey.read_exact.whole_eq_ok_iff_of_write fun _ =>
      PrivateKey.encode_of_readable, PrivateKey.Readable, and_assoc]

end SshKeyring
