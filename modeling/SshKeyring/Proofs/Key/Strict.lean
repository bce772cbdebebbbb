import SshKeyring.Proofs.Key.Container

/-! Readers that look at the padding of a private section. The reader of sections here leaves alone
what is behind the comment, so that it reads back what was written whatever the padding is. A strict
reader has a section made of whole blocks and ended by bytes that count up from one, fewer than a
block has. Of all that may stand behind the fields it takes one thing only, which is what is written
there. -/

namespace SshKeyring

open Wire

namespace PrivateSection

/-! ### Strict readers -/

/-- Whether the bytes count up from the first. -/
def countsUp (first : UInt8) : Bytes → Bool
  | [] => true
  | b :: rest => b == first && countsUp (first + 1) rest

/-- Reads the fields of a section that is at least one block and no part of another, and checks the
padding behind them. -/
def readStrictly {ε α : Type} (fields : Reader ε α) (fault : ε) (b : Bytes) : Except ε α :=
  if b.length < blockSize ∨ b.length % blockSize ≠ 0 then .error fault
  else
    match fields b with
    | .error e => .error e
    | .ok (a, rest) => if rest.length < blockSize && countsUp 1 rest then .ok a else .error fault

theorem countsUp_ofNat_iff {b : Bytes} (n : Nat) : countsUp (UInt8.ofNat (n + 1)) b = true ↔
    b = (List.range' n b.length).map fun i => UInt8.ofNat (i + 1) := by
  induction b generalizing n with
  | nil => simp [countsUp]
  | cons x b ih =>
    have next : UInt8.ofNat (n + 1) + 1 = UInt8.ofNat (n + 1 + 1) := by
      rw [UInt8.ofNat_add (n + 1)]
      rfl
    rw [countsUp, next, Bool.and_eq_true, ih, List.length_cons, List.range'_succ, List.map_cons,
      List.cons.injEq, beq_iff_eq]

theorem countsUp_iff {b : Bytes} : countsUp 1 b = true ↔ b = paddingBytes b.length := by
  rw [paddingBytes, List.range_eq_range']
  exact countsUp_ofNat_iff 0

/-- A strict reader takes the bytes that pad a section, and no others. -/
theorem readStrictly_eq_ok_iff {ε α : Type} {fields : Reader ε α} {fault : ε} {bare : Bytes} {a : α}
    (long : blockSize ≤ bare.length) (reads : ∀ rest, fields (bare ++ rest) = .ok (a, rest))
    (tail : Bytes) :
    readStrictly fields fault (bare ++ tail) = .ok a ↔ tail = padding bare.length := by
  have checks : readStrictly fields fault (bare ++ tail) = .ok a ↔
      (bare.length + tail.length) % blockSize = 0 ∧ tail.length < blockSize ∧
        tail = paddingBytes tail.length := by
    rw [← countsUp_iff, readStrictly, reads, List.length_append]
    split
    · next broken =>
      simp only [reduceCtorEq, false_iff]
      rintro ⟨whole, -⟩
      omega
    · next fits =>
      have whole : (bare.length + tail.length) % blockSize = 0 := by omega
      simp [whole]
  rw [checks, padding]
  unfold blockSize
  constructor
  · rintro ⟨whole, few, up⟩
    have missing : tail.length = (8 - bare.length % 8) % 8 := by omega
    rw [← missing]
    exact up
  · intro up
    have missing : tail.length = (8 - bare.length % 8) % 8 := by
      rw [up, length_paddingBytes]
    refine ⟨by omega, by omega, ?_⟩
    rw [missing]
    exact up

end PrivateSection

namespace Container

/-! ### Containers without encryption -/

theorem encodePlain_eq_ok_iff {publicKey : PublicKey} {s : PrivateSection} {check : UInt32}
    {out : Bytes} : encodePlain publicKey s check = .ok out ↔
      publicKey.wire.length < countLimit ∧ (s.wire check).length + 8 ≤ countLimit ∧
        out = (plain publicKey (PrivateSection.pad (s.wire check))).wire := by
  have padded := PrivateSection.paddedBy_pad (s.wire check)
  have length : (PrivateSection.pad (s.wire check)).length =
      (s.wire check).length + (8 - (s.wire check).length % 8) % 8 := by
    rw [padded.body_eq, List.length_append, PrivateSection.length_paddingBytes]
  simp only [encodePlain, bind_eq_ok, PrivateSection.encode_eq_ok_iff, encode_eq_ok_iff,
    ← PrivateSection.pad_eq]
  constructor
  · rintro ⟨_, ⟨-, -, rfl⟩, -, -, -, hpublic, -, hbody, rfl⟩
    change (PrivateSection.pad (s.wire check)).length < countLimit at hbody
    refine ⟨hpublic, ?_, rfl⟩
    unfold countLimit at *
    omega
  · rintro ⟨hpublic, hsection, rfl⟩
    have fields := s.length_wire check
    refine ⟨_, ⟨fun b hb => ?_, ?_, rfl⟩, lt_countLimit length_noneName,
      lt_countLimit length_noneName, Nat.zero_lt_succ _, hpublic, fun b hb => ?_, ?_, rfl⟩
    · have le := PrivateKey.length_le_of_mem_parts hb
      omega
    · omega
    · exact Nat.lt_of_le_of_lt (PublicKey.length_le_of_mem_parts hb) hpublic
    · change (PrivateSection.pad (s.wire check)).length < countLimit
      unfold countLimit at *
      omega

/-- A container without encryption ends in its private section: the check integer twice, the private
half and the comment, and as many of the bytes 1, 2, … as make it whole blocks. The loop that puts
them there ends, and what it counts stays below nine. A strict reader accepts the section whatever
its fields are read with, as long as that reads them and leaves the padding. All of this is written
just if the lengths of the blob and the section fit their counts. -/
theorem encodePlain_padded (publicKey : PublicKey) (s : PrivateSection) (check : UInt32) :
    ((∃ out, encodePlain publicKey s check = .ok out) ↔
      publicKey.wire.length < countLimit ∧ (s.wire check).length + 8 ≤ countLimit) ∧
    ∀ out, encodePlain publicKey s check = .ok out →
      ∃ key comment bare k body front, s.privateKey.encode = .ok key ∧
        putText s.comment = .ok comment ∧
        bare = putWord check ++ putWord check ++ key ++ comment ∧
        PrivateSection.PaddedBy bare k body ∧ out = front ++ stringBytes body ∧
        (∀ (ε α : Type) (fields : Reader ε α) (fault : ε) (a : α),
          (∀ rest, fields (bare ++ rest) = .ok (a, rest)) →
            PrivateSection.readStrictly fields fault body = .ok a) ∧
        (s.privateKey.WellFormed → bare.length ≤ maxLength →
          ∀ fault, PrivateSection.readStrictly (PrivateSection.read s.privateKey.type) fault body =
            .ok s) := by
  constructor
  · simp only [encodePlain_eq_ok_iff, exists_and_left, exists_eq, and_true]
  intro out h
  have padded := PrivateSection.paddedBy_pad (s.wire check)
  obtain ⟨body, hbody, h⟩ := bind_eq_ok.1 h
  obtain ⟨hparts, hcomment, rfl⟩ := PrivateSection.encode_eq_ok_iff.1 hbody
  obtain ⟨-, -, -, -, -, -, rfl⟩ := encode_eq_ok_iff.1 h
  rw [← PrivateSection.pad_eq]
  have accepted : ∀ (ε α : Type) (fields : Reader ε α) (fault : ε) (a : α),
      (∀ rest, fields (s.wire check ++ rest) = .ok (a, rest)) →
        PrivateSection.readStrictly fields fault (PrivateSection.pad (s.wire check)) = .ok a := by
    intro ε α fields fault a reads
    have long : PrivateSection.blockSize ≤ (s.wire check).length := by
      rw [s.length_wire, PrivateSection.blockSize]
      omega
    rw [PrivateSection.pad_eq, PrivateSection.readStrictly_eq_ok_iff long reads]
  exact ⟨_, _, s.wire check, _, _, _, PrivateKey.encode_eq_ok_iff.2 ⟨hparts, rfl⟩,
    putText_eq_ok_iff.2 ⟨hcomment, rfl⟩, rfl, padded, rfl, accepted,
    fun hk hl fault => accepted _ _ _ fault s (PrivateSection.read_wire hk hl)⟩

/-- An Ed25519 key with a comment of one letter, whose section comes to 132 bytes without its
padding. -/
def letterSection : PrivateSection where
  privateKey :=
    { type := .ed25519, preamble := [], parts := [List.replicate 32 7, List.replicate 64 9] }
  comment := "c"

def letterPublic : PublicKey := { type := .ed25519, parts := [List.replicate 32 7] }

theorem letterSection_padded : ∃ out front bare,
    encodePlain letterPublic letterSection 7 = .ok out ∧
      out = front ++ stringBytes (bare ++ [1, 2, 3, 4]) ∧
        PrivateSection.readStrictly (PrivateSection.read .ed25519) .wrongPassphraseOrCorruptKey
            (bare ++ [1, 2, 3, 4]) = .ok letterSection := by
  have blob : letterPublic.wire.length = 51 := rfl
  have length : (letterSection.wire 7).length = 132 := rfl
  obtain ⟨written, sections⟩ := encodePlain_padded letterPublic letterSection 7
  obtain ⟨out, hout⟩ := written.2 (by unfold countLimit; omega)
  obtain ⟨key, comment, bare, k, body, front, hkey, hcomment, rfl, padded, hfront, -, accepted⟩ :=
    sections out hout
  obtain ⟨-, rfl⟩ := PrivateKey.encode_eq_ok_iff.1 hkey
  obtain ⟨-, rfl⟩ := putText_eq_ok_iff.1 hcomment
  change PrivateSection.PaddedBy (letterSection.wire 7) k body at padded
  obtain ⟨rfl, few, whole, -⟩ := padded
  have four : k = 4 := by
    rw [List.length_append, PrivateSection.length_paddingBytes, length] at whole
    omega
  subst four
  refine ⟨out, front, letterSection.wire 7, hout, hfront, accepted ?_ ?_ _⟩
  · exact PrivateKey.wellFormed_iff.2 ⟨rfl, rfl⟩
  · exact Nat.le_trans (Nat.le_of_eq length) (by decide)

end Container

end SshKeyring
