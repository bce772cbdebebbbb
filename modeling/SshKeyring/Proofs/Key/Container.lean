import SshKeyring.Key.Container
import SshKeyring.Proofs.Key.Halves
import SshKeyring.Proofs.Key.Padding

/-! Private sections and containers are read back from what is written of them, whatever follows
the comment of a section or the section of a container. A section that is read has a well-formed
key of the type that was asked for. -/

namespace SshKeyring

open Wire

namespace PrivateSection

/-- A section without its padding. -/
def wire (s : PrivateSection) (check : UInt32) : Bytes :=
  putWord check ++ putWord check ++ s.privateKey.wire ++ stringBytes (Utf8.encode s.comment)

theorem length_wire (s : PrivateSection) (check : UInt32) : (s.wire check).length =
    8 + s.privateKey.wire.length + (4 + (Utf8.encode s.comment).length) := by
  simp only [wire, List.length_append, length_putWord, length_stringBytes, stringSize]

theorem encodeBare_eq_ok_iff {s : PrivateSection} {check : UInt32} {out : Bytes} :
    s.encodeBare check = .ok out ↔ (∀ b ∈ s.privateKey.parts, b.length < countLimit) ∧
      (Utf8.encode s.comment).length < countLimit ∧ out = s.wire check := by
  simp only [encodeBare, bind_eq_ok, PrivateKey.encode_eq_ok_iff, putText_eq_ok_iff, pure_eq_ok]
  constructor
  · rintro ⟨_, ⟨hparts, rfl⟩, _, ⟨hcomment, rfl⟩, rfl⟩
    exact ⟨hparts, hcomment, rfl⟩
  · rintro ⟨hparts, hcomment, rfl⟩
    exact ⟨_, ⟨hparts, rfl⟩, _, ⟨hcomment, rfl⟩, rfl⟩

theorem encodeBare_eq_ok {s : PrivateSection} {check : UInt32} {out : Bytes}
    (h : s.encodeBare check = .ok out) : out = s.wire check :=
  (encodeBare_eq_ok_iff.1 h).2.2

/-- What is written of a section, if its strings are short enough. -/
theorem encode_eq_ok_iff {s : PrivateSection} {check : UInt32} {out : Bytes} :
    s.encode check = .ok out ↔ (∀ b ∈ s.privateKey.parts, b.length < countLimit) ∧
      (Utf8.encode s.comment).length < countLimit ∧
        out = s.wire check ++ padding (s.wire check).length := by
  simp only [encode, bind_eq_ok, encodeBare_eq_ok_iff, pure_eq_ok, pad_eq]
  constructor
  · rintro ⟨_, ⟨hparts, hcomment, rfl⟩, rfl⟩
    exact ⟨hparts, hcomment, rfl⟩
  · rintro ⟨hparts, hcomment, rfl⟩
    exact ⟨_, ⟨hparts, hcomment, rfl⟩, rfl⟩

theorem readChecks_exact :
    readChecks.Exact (fun _ => True) (fun c => putWord c.1 ++ putWord c.2) := by
  refine Reader.Exact.mapError (fun input c rest => ?_) _
  simp only [Reader.bind_eq_ok_iff]
  constructor
  · rintro ⟨first, left, h1, second, left', h2, h⟩
    obtain ⟨-, rfl⟩ := (word_exact _ _ _).1 h1
    obtain ⟨-, rfl⟩ := (word_exact _ _ _).1 h2
    cases h
    exact ⟨trivial, (List.append_assoc ..).symm⟩
  · rintro ⟨-, rfl⟩
    rw [List.append_assoc]
    exact ⟨_, _, word_exact.read trivial _, _, rest, word_exact.read trivial rest, rfl⟩

/-- A section is one integer twice, a private key of the type that was asked for and a comment,
which need not be UTF-8. Anything may be behind that. -/
theorem read_eq_ok_iff {type : KeyType} {s : PrivateSection} {input rest : Bytes} :
    read type input = .ok (s, rest) ↔ s.privateKey.type = type ∧ s.privateKey.Readable ∧
      ∃ (check : UInt32) (comment : Bytes), comment.length ≤ maxLength ∧
        s.comment = Utf8.decodeLossy comment ∧
          input = putWord check ++ putWord check ++ s.privateKey.wire ++ stringBytes comment ++
            rest := by
  have string := string_exact.mapError KeyError.ofWire
  simp only [read, Reader.bind_eq_ok_iff, readChecks_exact _ _ _, Reader.failIf_eq_ok_iff,
    PrivateKey.read_exact _ _ _, string _ _ _, Reader.pure_apply, Except.ok.injEq, Prod.mk.injEq,
    Prod.exists, ne_eq, not_not]
  constructor
  · rintro ⟨check, _, _, ⟨-, rfl⟩, rfl, key, _, ⟨hkey, rfl⟩, htype, comment, _, ⟨hl, rfl⟩, rfl, rfl⟩
    exact ⟨htype, hkey, check, comment, hl, rfl, by simp only [List.append_assoc]⟩
  · obtain ⟨key, _⟩ := s
    rintro ⟨htype, hkey, check, comment, hl, rfl, rfl⟩
    exact ⟨check, check, _, ⟨trivial, by simp only [List.append_assoc]⟩, rfl, key, _,
      ⟨hkey, rfl⟩, htype, comment, rest, ⟨hl, rfl⟩, rfl, rfl⟩

/-- A section of a well-formed key is read back, with anything behind it. -/
theorem read_wire {s : PrivateSection} (hk : s.privateKey.WellFormed) {check : UInt32}
    (hl : (s.wire check).length ≤ maxLength) (rest : Bytes) :
    read s.privateKey.type (s.wire check ++ rest) = .ok (s, rest) := by
  rw [length_wire] at hl
  have hp : ∀ b ∈ s.privateKey.parts, b.length ≤ maxLength := fun b hb =>
    Nat.le_trans (PrivateKey.length_le_of_mem_parts hb) (by omega)
  exact read_eq_ok_iff.2 ⟨rfl, ⟨hk, hp⟩, check, Utf8.encode s.comment, by omega,
    (Utf8.decodeLossy_encode s.comment).symm, rfl⟩

/-- What is written of a section is read back, with anything behind it, if readers take a string
of the length of both. -/
theorem decode_wire_append {s : PrivateSection} (hk : s.privateKey.WellFormed) {check : UInt32}
    {padding : Bytes} (hl : (s.wire check ++ padding).length ≤ maxLength) :
    decode s.privateKey.type (s.wire check ++ padding) = .ok s := by
  rw [List.length_append] at hl
  rw [decode, read_wire hk (by omega)]
  rfl

theorem decode_encode {s : PrivateSection} (hk : s.privateKey.WellFormed) {check : UInt32}
    {out : Bytes} (h : s.encode check = .ok out) (hl : out.length ≤ maxLength) :
    decode s.privateKey.type out = .ok s := by
  obtain ⟨-, -, rfl⟩ := encode_eq_ok_iff.1 h
  exact decode_wire_append hk hl

theorem wellFormed_of_decode {type : KeyType} {b : Bytes} {s : PrivateSection}
    (h : decode type b = .ok s) : s.privateKey.type = type ∧ s.privateKey.WellFormed := by
  obtain ⟨⟨_, rest⟩, hr, rfl⟩ := map_eq_ok.1 h
  obtain ⟨htype, hreadable, -⟩ := read_eq_ok_iff.1 hr
  exact ⟨htype, hreadable.1⟩

end PrivateSection

namespace Container

/-- A container on the wire, with its key's blob as its one public key. -/
def wire (c : Container) : Bytes :=
  magic ++ stringBytes (Utf8.encode c.cipher) ++ stringBytes (Utf8.encode c.kdf) ++
    stringBytes c.kdfOptions ++ putWord 1 ++ stringBytes c.publicKey.wire ++ stringBytes c.body

theorem encodeCounted_eq_ok_iff {k : PublicKey} {out : Bytes} : k.encodeCounted = .ok out ↔
    k.wire.length < countLimit ∧ (∀ b ∈ k.parts, b.length < countLimit) ∧
      out = stringBytes k.wire := by
  simp only [PublicKey.encodeCounted, bind_eq_ok, putCount, PublicKey.encode_eq_ok_iff,
    pure_eq_ok, ← PublicKey.length_wire]
  by_cases hl : k.wire.length < countLimit
  · simp [hl, stringBytes, eq_comm]
  · simp [hl]

/-- What is written of a container, if its strings are short enough. -/
theorem encode_eq_ok_iff {c : Container} {out : Bytes} : c.encode = .ok out ↔
    (Utf8.encode c.cipher).length < countLimit ∧ (Utf8.encode c.kdf).length < countLimit ∧
      c.kdfOptions.length < countLimit ∧ c.publicKey.wire.length < countLimit ∧
        (∀ b ∈ c.publicKey.parts, b.length < countLimit) ∧ c.body.length < countLimit ∧
          out = c.wire := by
  simp only [encode, bind_eq_ok, putText_eq_ok_iff, putString_eq_ok_iff, encodeCounted_eq_ok_iff,
    pure_eq_ok]
  constructor
  · rintro ⟨_, ⟨h1, rfl⟩, _, ⟨h2, rfl⟩, _, ⟨h3, rfl⟩, _, ⟨h4, h5, rfl⟩, _, ⟨h6, rfl⟩, rfl⟩
    exact ⟨h1, h2, h3, h4, h5, h6, rfl⟩
  · rintro ⟨h1, h2, h3, h4, h5, h6, rfl⟩
    exact ⟨_, ⟨h1, rfl⟩, _, ⟨h2, rfl⟩, _, ⟨h3, rfl⟩, _, ⟨h4, h5, rfl⟩, _, ⟨h6, rfl⟩, rfl⟩

theorem readMagic_exact : readMagic.Exact (fun _ => True) (fun _ => magic) := by
  intro input _ rest
  have take := (take_exact magic.length).mapError KeyError.ofWire
  simp only [readMagic, Reader.bind_eq_ok_iff, take _ _ _, Reader.failIf_eq_ok_iff,
    Reader.pure_apply, Except.ok.injEq, Prod.mk.injEq, ne_eq, not_not]
  constructor
  · rintro ⟨front, left, ⟨-, rfl⟩, rfl, -, rfl⟩
    exact ⟨trivial, rfl⟩
  · rintro ⟨-, rfl⟩
    exact ⟨magic, rest, ⟨rfl, rfl⟩, rfl, trivial, rfl⟩

/-- The first of the public keys is the blob of one, and the others are as many strings as there are
to be. -/
theorem readPublicKeys_eq_ok_iff {n : Nat} {k : PublicKey} {input rest : Bytes} :
    readPublicKeys n input = .ok (k, rest) ↔ k.Readable ∧ k.wire.length ≤ maxLength ∧
      ∃ others : List Bytes, others.length + 1 = n ∧ (∀ b ∈ others, b.length ≤ maxLength) ∧
        input = stringBytes k.wire ++ others.flatMap stringBytes ++ rest := by
  have string := string_exact.mapError KeyError.ofWire
  have strings := (string_exact.times (n - 1)).mapError KeyError.ofWire
  simp only [readPublicKeys, Reader.failIf_eq_ok_iff, Reader.bind_eq_ok_iff, string _ _ _]
  constructor
  · rintro ⟨hn, blob, left, ⟨hblob, rfl⟩, h⟩
    cases hkey : PublicKey.ofBlob blob with
    | error e =>
      rw [hkey] at h
      cases h
    | ok key =>
      rw [hkey] at h
      obtain ⟨hreadable, rfl⟩ := PublicKey.ofBlob_eq_ok_iff.1 hkey
      obtain ⟨others, left, hothers, hlast⟩ := (Reader.bind_eq_ok_iff _ _ _ _).1 h
      obtain ⟨⟨hlength, hshort⟩, rfl⟩ := (strings _ _ _).1 hothers
      cases hlast
      exact ⟨hreadable, hblob, others, by omega, hshort, (List.append_assoc ..).symm⟩
  · rintro ⟨hreadable, hblob, others, rfl, hshort, rfl⟩
    refine ⟨by omega, k.wire, _, ⟨hblob, List.append_assoc ..⟩, ?_⟩
    rw [PublicKey.ofBlob_eq_ok_iff.2 ⟨hreadable, rfl⟩]
    exact (Reader.bind_eq_ok_iff _ _ _ _).2
      ⟨others, rest, strings.read ⟨rfl, hshort⟩ rest, rfl⟩

/-- A container on the wire, with other strings where the public keys behind the first stand. -/
def wireAmong (c : Container) (others : List Bytes) : Bytes :=
  magic ++ stringBytes (Utf8.encode c.cipher) ++ stringBytes (Utf8.encode c.kdf) ++
    stringBytes c.kdfOptions ++ putWord (UInt32.ofNat (others.length + 1)) ++
    stringBytes c.publicKey.wire ++ others.flatMap stringBytes ++ stringBytes c.body

theorem wire_eq_wireAmong (c : Container) : c.wire = c.wireAmong [] := by
  simp [wire, wireAmong]

/-- None of the strings is longer than readers take them. -/
structure Short (c : Container) : Prop where
  cipher : (Utf8.encode c.cipher).length ≤ maxLength
  kdf : (Utf8.encode c.kdf).length ≤ maxLength
  kdfOptions : c.kdfOptions.length ≤ maxLength
  publicKey : c.publicKey.wire.length ≤ maxLength
  body : c.body.length ≤ maxLength

/-- A container is read off what is written of it and off the same with other strings where more
public keys may stand, whatever is behind it. -/
theorem read_eq_ok_iff {c : Container} {input rest : Bytes} :
    read input = .ok (c, rest) ↔ c.publicKey.WellFormed ∧ c.Short ∧
      ∃ others : List Bytes, others.length + 1 < countLimit ∧
        (∀ b ∈ others, b.length ≤ maxLength) ∧ input = c.wireAmong others ++ rest := by
  have text := text_exact.mapError KeyError.ofWire
  have string := string_exact.mapError KeyError.ofWire
  have word := word_exact.mapError KeyError.ofWire
  simp only [read, Reader.bind_eq_ok_iff, readMagic_exact _ _ _, text _ _ _, string _ _ _,
    word _ _ _, readPublicKeys_eq_ok_iff, Reader.pure_apply, Except.ok.injEq, Prod.mk.injEq]
  constructor
  · rintro ⟨-, _, ⟨-, rfl⟩, cipher, _, ⟨hcipher, rfl⟩, kdf, _, ⟨hkdf, rfl⟩, options, _,
      ⟨hoptions, rfl⟩, n, _, ⟨-, rfl⟩, key, _, ⟨hkey, hkeyl, others, hn, hothers, rfl⟩, body, _,
      ⟨hbody, rfl⟩, rfl, rfl⟩
    have count : UInt32.ofNat (others.length + 1) = n := by rw [hn, UInt32.ofNat_toNat]
    refine ⟨hkey.1, ⟨hcipher, hkdf, hoptions, hkeyl, hbody⟩, others, ?_, hothers, ?_⟩
    · rw [hn]
      exact n.toNat_lt
    · simp only [wireAmong, count, List.append_assoc]
  · obtain ⟨cipher, kdf, options, key, body⟩ := c
    rintro ⟨hkey, short, others, hn, hothers, rfl⟩
    exact ⟨(), _, ⟨trivial, by simp only [wireAmong, List.append_assoc]⟩,
      cipher, _, ⟨short.cipher, rfl⟩, kdf, _, ⟨short.kdf, rfl⟩, options, _, ⟨short.kdfOptions, rfl⟩,
      _, _, ⟨trivial, rfl⟩, key, _, ⟨PublicKey.readable_of_length_le hkey short.publicKey,
        short.publicKey, others, (toNat_ofNat_count hn).symm, hothers,
          (List.append_assoc _ _ _).symm⟩, body, _, ⟨short.body, rfl⟩, rfl, rfl⟩

/-- What is written of a container is read back if readers take strings of its lengths. -/
theorem decode_wire {c : Container} (hk : c.publicKey.WellFormed)
    (hcipher : (Utf8.encode c.cipher).length ≤ maxLength)
    (hkdf : (Utf8.encode c.kdf).length ≤ maxLength) (hoptions : c.kdfOptions.length ≤ maxLength)
    (hkey : c.publicKey.wire.length ≤ maxLength) (hbody : c.body.length ≤ maxLength) :
    decode c.wire = .ok c := by
  have read : read c.wire = .ok (c, []) := by
    refine read_eq_ok_iff.2 ⟨hk, ⟨hcipher, hkdf, hoptions, hkey, hbody⟩, [], by decide, by simp, ?_⟩
    rw [wire_eq_wireAmong, List.append_nil]
  rw [decode, read]
  rfl

/-! ### Unencrypted containers -/

theorem length_noneName : (Utf8.encode noneName).length ≤ maxLength := by decide

theorem encode_plain {publicKey : PublicKey} {body : Bytes}
    (hl : publicKey.wire.length ≤ maxLength) (hb : body.length ≤ maxLength) :
    (plain publicKey body).encode = .ok (plain publicKey body).wire := by
  have parts : ∀ b ∈ publicKey.parts, b.length < countLimit := fun b hm =>
    lt_countLimit (Nat.le_trans (PublicKey.length_le_of_mem_parts hm) hl)
  exact encode_eq_ok_iff.2 ⟨lt_countLimit length_noneName, lt_countLimit length_noneName,
    Nat.zero_lt_succ _, lt_countLimit hl, parts, lt_countLimit hb, rfl⟩

theorem decode_wire_plain {publicKey : PublicKey} {body : Bytes} (hk : publicKey.WellFormed)
    (hl : publicKey.wire.length ≤ maxLength) (hb : body.length ≤ maxLength) :
    decode (plain publicKey body).wire = .ok (plain publicKey body) :=
  decode_wire (c := plain publicKey body) hk length_noneName length_noneName (Nat.zero_le _) hl hb

/-! ### What a container is read with -/

/-- The public key that a container is read with has the strings that its type calls for. -/
theorem wellFormed_of_decode {b : Bytes} {c : Container} (h : decode b = .ok c) :
    c.publicKey.WellFormed := by
  obtain ⟨⟨_, _⟩, hr, rfl⟩ := map_eq_ok.1 h
  exact (read_eq_ok_iff.1 hr).1

end Container

end SshKeyring
