import SshKeyring.Derive.Bcrypt
import SshKeyring.Derive.Md5Chain
import SshKeyring.Derive.Options
import SshKeyring.Proofs.Wire

/-! Key material has the length that was asked for, and the parameters it is made from are read
back as they were written. A chain of digests is made as far as it is needed; what is made of it
depends on nothing but how far that is. -/

namespace SshKeyring

open Wire

namespace Bcrypt

/-- From a passphrase and a salt that are not empty, as many bytes as are called for. -/
theorem exists_derive {passphrase salt : Bytes} {rounds length : Nat} (hp : passphrase ≠ [])
    (hs : salt ≠ []) (hr : rounds ≠ 0) (hl : 0 < length) (hm : length ≤ maxLength) :
    ∃ derived, derive passphrase salt rounds length = .ok derived ∧ derived.length = length := by
  have fine : ¬(passphrase = [] ∨ salt = [] ∨ rounds = 0 ∨ length = 0 ∨ length > maxLength) := by
    simp only [hp, hs, hr, false_or]
    omega
  unfold derive
  rw [if_neg fine]
  exact ⟨_, rfl, by simp⟩

end Bcrypt

namespace Md5Chain

/-- A digest by its number: none at zero, and then each over the one before it. -/
def digest (secret : Bytes) : Nat → Bytes
  | 0 => []
  | i + 1 => md5 (digest secret i ++ secret)

/-- The digests from the first on, one behind the other. -/
def digests (secret : Bytes) : Nat → Bytes
  | 0 => []
  | n + 1 => digests secret n ++ digest secret (n + 1)

theorem length_digests (secret : Bytes) (n : Nat) : (digests secret n).length = 16 * n := by
  induction n with
  | zero => rfl
  | succ n ih =>
    rw [digests, List.length_append, ih, digest, length_md5]
    omega

/-- More digests have the fewer in front. -/
theorem digests_prefix (secret : Bytes) {m n : Nat} (h : m ≤ n) :
    digests secret m <+: digests secret n := by
  induction h with
  | refl => exact List.prefix_rfl
  | step _ ih => exact ih.trans (List.prefix_append _ _)

/-- How many digests there are makes no difference to bytes that all of them have. -/
theorem take_digests (secret : Bytes) {length m n : Nat} (hm : length ≤ 16 * m)
    (hn : length ≤ 16 * n) : (digests secret m).take length = (digests secret n).take length := by
  have part : ∀ {m n}, length ≤ 16 * m → m ≤ n →
      (digests secret m).take length = (digests secret n).take length := by
    intro m n hm hle
    obtain ⟨rest, he⟩ := digests_prefix secret hle
    rw [← he, List.take_append_of_le_length (by rwa [length_digests])]
  obtain hle | hle := Nat.le_total m n
  · exact part hm hle
  · exact (part hn hle).symm

/-- After `i` rounds the output is the first `i` digests, with the last of them at hand. The loop
goes on for as many rounds as digests are lacking. -/
theorem extend_digests (secret : Bytes) (target : Nat) {i left : Nat}
    (h : i + left = max i ((target + 15) / 16)) :
    extend secret target (digests secret i) (digest secret i) = digests secret (i + left) := by
  induction left generalizing i with
  | zero =>
    rw [extend, if_neg (by rw [length_digests]; omega)]
    rfl
  | succ left ih =>
    have round := ih (i := i + 1) (by omega)
    rw [extend, if_pos (by rw [length_digests]; omega)]
    rwa [Nat.add_right_comm] at round

/-- The loop makes as many digests as it takes and no more. -/
theorem extend_eq (secret : Bytes) (target : Nat) :
    extend secret target [] [] = digests secret ((target + 15) / 16) := by
  have rounds : 0 + (target + 15) / 16 = max 0 ((target + 15) / 16) := by omega
  have run := extend_digests secret target rounds
  rwa [Nat.zero_add] at run

theorem derive_eq {iv : Bytes} (h : 8 ≤ iv.length) (passphrase : Bytes) {length n : Nat}
    (hn : length ≤ 16 * n) :
    derive passphrase iv length = .ok ((digests (passphrase ++ iv.take 8) n).take length) := by
  rw [derive, if_neg (by omega), extend_eq, take_digests _ (by omega) hn]

theorem exists_derive {iv : Bytes} (h : 8 ≤ iv.length) (passphrase : Bytes) (length : Nat) :
    ∃ derived, derive passphrase iv length = .ok derived ∧ derived.length = length := by
  refine ⟨_, derive_eq h passphrase (by omega : length ≤ 16 * length), ?_⟩
  rw [List.length_take, length_digests]
  omega

/-- Key material is what the sequence of digests begins with, in the length that was asked for. It
is refused just where the initial vector has fewer than eight bytes; bytes of that behind the eighth
make no difference. Less key material is a front of more. -/
theorem derive_of_digests (passphrase iv : Bytes) {length n : Nat} (hn : length ≤ 16 * n) :
    derive passphrase iv length =
        (if iv.length < 8 then .error (.ivTooShort iv.length)
          else .ok ((digests (passphrase ++ iv.take 8) n).take length)) ∧
      (∀ out, derive passphrase iv length = .ok out → out.length = length) ∧
      (∀ shorter ≤ length,
        derive passphrase iv shorter = (derive passphrase iv length).map (·.take shorter)) ∧
      ∀ vector, 8 ≤ iv.length → vector.take 8 = iv.take 8 →
        derive passphrase vector length = derive passphrase iv length := by
  by_cases hiv : iv.length < 8
  · have refused : ∀ length, derive passphrase iv length = .error (.ivTooShort iv.length) :=
      fun length => if_pos hiv
    refine ⟨by rw [refused, if_pos hiv], fun out h => ?_, fun shorter _ => ?_, fun _ h => by omega⟩
    · rw [refused] at h
      cases h
    · rw [refused, refused]
      rfl
  · have long : 8 ≤ iv.length := by omega
    have made := derive_eq long passphrase hn
    refine ⟨by rw [made, if_neg hiv], fun out h => ?_, fun shorter hs => ?_, fun vector _ he => ?_⟩
    · rw [made, Except.ok.injEq] at h
      rw [← h, List.length_take, length_digests]
      omega
    · rw [made, derive_eq long passphrase (Nat.le_trans hs hn)]
      simp only [Except.map, List.take_take, Nat.min_eq_left hs]
    · have enough : 8 ≤ vector.length := by
        have lengths := congrArg List.length he
        simp only [List.length_take] at lengths
        omega
      rw [derive_eq enough passphrase hn, he, made]

/-- The passphrase `secret` with a vector of eight bytes. -/
theorem secret_derive :
    derive (Utf8.encode "secret") [0, 1, 2, 3, 4, 5, 6, 7] 20 = .ok [0x03, 0x5F, 0xB8, 0x14, 0x5B,
        0x73, 0xCF, 0x11, 0x15, 0x70, 0xDC, 0x93, 0x61, 0x12, 0xBE, 0x9C, 0x37, 0x5A, 0x5D, 0x3D] ∧
      derive (Utf8.encode "secret") [0, 1, 2, 3, 4, 5, 6, 7] 16 =
        .ok [0x03, 0x5F, 0xB8, 0x14, 0x5B, 0x73, 0xCF, 0x11, 0x15, 0x70, 0xDC, 0x93, 0x61, 0x12,
          0xBE, 0x9C] ∧
      derive (Utf8.encode "secret") [0, 1, 2, 3, 4, 5, 6, 7, 8] 20 =
        derive (Utf8.encode "secret") [0, 1, 2, 3, 4, 5, 6, 7] 20 := by
  obtain ⟨whole, -, front, vector⟩ := derive_of_digests (Utf8.encode "secret")
    [0, 1, 2, 3, 4, 5, 6, 7] (by decide : 20 ≤ 16 * 2)
  have twoDigests : (digests (Utf8.encode "secret" ++ [0, 1, 2, 3, 4, 5, 6, 7]) 2).take 20 =
      [0x03, 0x5F, 0xB8, 0x14, 0x5B, 0x73, 0xCF, 0x11, 0x15, 0x70, 0xDC, 0x93, 0x61, 0x12, 0xBE,
        0x9C, 0x37, 0x5A, 0x5D, 0x3D] := by decide +kernel
  have made := whole.trans (congrArg Except.ok twoDigests)
  refine ⟨made, ?_, vector _ (by decide) rfl⟩
  rw [front 16 (by decide), made]
  rfl

end Md5Chain

namespace KdfOptions

def wire (o : KdfOptions) : Bytes := stringBytes o.salt ++ putWord o.rounds

theorem encode_eq_ok_iff {o : KdfOptions} {out : Bytes} :
    o.encode = .ok out ↔ o.salt.length < countLimit ∧ out = o.wire := by
  simp only [encode, bind_eq_ok, putString_eq_ok_iff, pure_eq_ok]
  constructor
  · rintro ⟨_, ⟨hs, rfl⟩, rfl⟩
    exact ⟨hs, rfl⟩
  · rintro ⟨hs, rfl⟩
    exact ⟨_, ⟨hs, rfl⟩, rfl⟩

theorem read_exact : read.Exact (fun o => o.salt.length ≤ maxLength) wire := by
  have all := string_exact.bind
    (fun salt _ => word_exact.bind
      (fun rounds _ => Reader.pure_exact { salt, rounds : KdfOptions }) KdfOptions.rounds
      (by rintro _ _ rfl; rfl)) KdfOptions.salt (by
    rintro _ _ ⟨-, h⟩
    rw [h])
  refine (all.mapError KeyError.ofWire).congr (fun o => ?_) (fun o _ => ?_)
  · simp
  · rw [wire, List.append_nil]

/-- The options are read off what is written of them if readers take a string of its length. -/
theorem ofBytes_encode {o : KdfOptions} {out : Bytes} (h : o.encode = .ok out)
    (hl : out.length ≤ maxLength) : ofBytes out = .ok o := by
  obtain ⟨-, rfl⟩ := encode_eq_ok_iff.1 h
  rw [wire, List.length_append, length_stringBytes, stringSize] at hl
  exact (read_exact.whole_eq_ok_iff _ _ _).2 ⟨by omega, rfl⟩

end KdfOptions

end SshKeyring
