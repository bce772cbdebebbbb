import SshKeyring.Proofs.Key.Equality
import SshKeyring.Proofs.Key.Legacy

/-! The public half of a private one. A private half has the strings that its type calls for however
it came about: put together from its parts, read off the wire or decoded from a traditional body. So
the public half can always be worked out, and it has the public ones of these strings. Those of a
traditional key are integers of its body in canonical form, and its size is that of the first of them
behind the version. -/

namespace SshKeyring

/-- The body of a traditional block is decoded into parts, which the key is put together from. -/
theorem Legacy.made_of_decode {kind : Kind} {body : Bytes} {k : PrivateKey}
    (h : decode kind body = .ok k) : k.Made := by
  obtain ⟨parts, h⟩ := ofParts_of_decode h
  exact .ofParts h

namespace PrivateKey

/-- The public half of a private one, however that came about: it is of the same type and has just
the strings of the private half that are public, as many as the type calls for. -/
theorem publicKey_of_made {k : PrivateKey}
    (h : k.Made ∨ ∃ kind body, Legacy.decode kind body = .ok k) :
    ∃ half, k.publicKey = .ok half ∧ half.type = k.type ∧
      half.parts.length = k.type.publicParts ∧ PublicStrings k half.parts := by
  have made : k.Made := by
    obtain made | ⟨kind, body, h⟩ := h
    · exact made
    · exact Legacy.made_of_decode h
  obtain ⟨strings, found⟩ := exists_publicStrings made.wellFormed
  exact ⟨_, found.publicKey_eq, rfl, found.length_eq, found⟩

theorem withFlags_publicKey : (withFlags 1).Made ∧ ∃ half, (withFlags 1).publicKey = .ok half ∧
    half.type = .skEcdsaP256 ∧ half.parts = [[1], [2], [3]] ∧
      PublicStrings (withFlags 1) half.parts := by
  have derived : (withFlags 1).publicKey = .ok { type := .skEcdsaP256, parts := [[1], [2], [3]] } :=
    rfl
  obtain ⟨half, hhalf, htype, -, found⟩ := publicKey_of_made (.inl (made_withFlags 1))
  have parts : half.parts = [[1], [2], [3]] := by
    rw [← Except.ok.inj (derived.symm.trans hhalf)]
  exact ⟨made_withFlags 1, half, hhalf, htype, parts, found⟩

end PrivateKey

/-! ### Traditional keys -/

namespace Legacy

/-- The most integers that are read of a body. -/
def Kind.most : Kind → Nat
  | .rsa => 9
  | .dsa => 6

/-- The integers of an RSA body that the public half of its key comes from. -/
theorem exists_integers_of_rsaKey {body : Bytes} {k : PrivateKey} (h : rsaKey body = .ok k)
    {half : PublicKey} (hhalf : k.publicKey = .ok half) :
    ∃ version n e more, Der.integersOf body 6 9 = .ok (version :: n :: e :: more) ∧
      half = { type := .rsa, parts := [Mpint.ofMagnitude e, Mpint.ofMagnitude n] } := by
  obtain ⟨ints, hints, h⟩ := bind_eq_ok.1 h
  split at h
  · next version n e d p q rest =>
    obtain ⟨inverse, -, h⟩ := bind_eq_ok.1 h
    obtain ⟨-, -, rfl⟩ := PrivateKey.ofParts_eq_ok_iff.1 h
    obtain ⟨-, rfl⟩ := PublicKey.ofParts_eq_ok_iff.1 hhalf
    exact ⟨version, n, e, d :: p :: q :: rest, mapError_eq_ok.1 hints, rfl⟩
  · cases h

/-- The integers of a DSA body, of which all but the version and the last make up the public half of
its key. -/
theorem exists_integers_of_dsaKey {body : Bytes} {k : PrivateKey} (h : dsaKey body = .ok k)
    {half : PublicKey} (hhalf : k.publicKey = .ok half) :
    ∃ version p q g y x, Der.integersOf body 6 6 = .ok [version, p, q, g, y, x] ∧
      half = { type := .dss, parts := [p, q, g, y].map Mpint.ofMagnitude } := by
  obtain ⟨ints, hints, h⟩ := bind_eq_ok.1 h
  obtain ⟨-, hn, rfl⟩ := PrivateKey.ofParts_eq_ok_iff.1 h
  obtain ⟨-, rfl⟩ := PublicKey.ofParts_eq_ok_iff.1 hhalf
  have six : ints.length = 6 := by
    simpa [KeyType.privateParts] using hn
  match ints, six with
  | [version, p, q, g, y, x], _ =>
    exact ⟨version, p, q, g, y, x, mapError_eq_ok.1 hints, rfl⟩

/-- The size of a key is read off the canonical form of the integer behind the version: the modulus
of an RSA key and the prime of a DSA key. -/
theorem bits_of_decode {kind : Kind} {body : Bytes} {k : PrivateKey}
    (h : decode kind body = .ok k) {half : PublicKey} (hhalf : k.publicKey = .ok half) :
    ∃ version m more, Der.integersOf body 6 kind.most = .ok (version :: m :: more) ∧
      half.bits = ((Mpint.ofMagnitude m).length - 1) * 8 := by
  cases kind with
  | rsa =>
    obtain ⟨version, n, e, more, hints, rfl⟩ := exists_integers_of_rsaKey h hhalf
    exact ⟨version, n, e :: more, hints, rfl⟩
  | dsa =>
    obtain ⟨version, p, q, g, y, x, hints, rfl⟩ := exists_integers_of_dsaKey h hhalf
    exact ⟨version, p, [q, g, y, x], hints, rfl⟩

end Legacy

end SshKeyring
