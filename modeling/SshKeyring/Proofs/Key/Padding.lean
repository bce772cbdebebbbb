import SshKeyring.Key.Container

/-! The loop that pads a private section. Each round brings the section one byte nearer to a whole
number of blocks, so fewer rounds are made than a block has bytes, and the byte that is counted up
is one more than the number of rounds: it never comes near the largest byte. What the loop leaves is
the section with the bytes 1, 2, … behind it. -/

namespace SshKeyring.PrivateSection

/-- The bytes 1, 2, … up to `n`. -/
def paddingBytes (n : Nat) : Bytes := (List.range n).map fun i => UInt8.ofNat (i + 1)

/-- The padding after `n` bytes. -/
def padding (n : Nat) : Bytes := paddingBytes ((blockSize - n % blockSize) % blockSize)

@[simp] theorem length_paddingBytes (n : Nat) : (paddingBytes n).length = n := by
  simp [paddingBytes]

theorem paddingBytes_succ (n : Nat) :
    paddingBytes (n + 1) = paddingBytes n ++ [UInt8.ofNat (n + 1)] := by
  simp [paddingBytes, List.range_succ]

namespace Padded

/-! ### Rounds of the loop -/

/-- The loop comes from one state to another in so many rounds. -/
inductive Rounds (p : Padded) : Nat → Padded → Prop
  | start : Rounds p 0 p
  | round {n : Nat} {q r : Padded} (h : Rounds p n q) (last : q.step? = some r) : Rounds p (n + 1) r

theorem Rounds.cons {p q r : Padded} {n : Nat} (first : p.step? = some q) (h : q.Rounds n r) :
    p.Rounds (n + 1) r := by
  induction h with
  | start => exact .round .start first
  | round _ last ih => exact .round ih last

theorem Rounds.missing_eq {p q : Padded} {n : Nat} (h : p.Rounds n q) :
    p.missing = q.missing + n := by
  induction h with
  | start => rfl
  | round _ last ih =>
    rw [ih, missing_of_step? last]
    omega

/-- The loop stops where no byte is missing. -/
theorem step?_eq_none_iff {p : Padded} : p.step? = none ↔ p.missing = 0 := by
  unfold step? missing blockSize
  split
  · next whole => simp [whole]
  · next h =>
    simp only [reduceCtorEq, false_iff]
    omega

/-- The loop ends after as many rounds as bytes are missing. -/
theorem rounds_finish (p : Padded) :
    ∃ q, p.Rounds p.missing q ∧ q.step? = none ∧ p.finish = q.bytes := by
  induction p using finish.induct with
  | case1 p done =>
    refine ⟨p, ?_, done, ?_⟩
    · rw [step?_eq_none_iff.1 done]
      exact .start
    · rw [finish, done]
  | case2 p q more ih =>
    obtain ⟨r, rounds, done, last⟩ := ih
    refine ⟨r, ?_, done, ?_⟩
    · rw [missing_of_step? more]
      exact .cons more rounds
    · rw [finish, more]
      exact last

/-! ### What the rounds add -/

/-- The state of the loop after `n` rounds. -/
def after (bare : Bytes) (n : Nat) : Padded where
  bytes := bare ++ paddingBytes n
  next := UInt8.ofNat (n + 1)

theorem after_zero (bare : Bytes) : after bare 0 = { bytes := bare, next := 1 } := by
  simp [after, paddingBytes]

theorem toNat_next_after (bare : Bytes) {n : Nat} (h : n < blockSize) :
    (after bare n).next.toNat = n + 1 := by
  rw [after, UInt8.toNat_ofNat']
  unfold blockSize at h
  omega

/-- A round adds the byte after the last one. -/
theorem step?_after {bare : Bytes} {n : Nat} {q : Padded} (h : (after bare n).step? = some q) :
    q = after bare (n + 1) := by
  unfold step? at h
  split at h
  · cases h
  · cases h
    simp [after, paddingBytes_succ, UInt8.ofNat_add]

theorem Rounds.eq_after {bare : Bytes} {n : Nat} {q : Padded} (h : (after bare 0).Rounds n q) :
    q = after bare n := by
  induction h with
  | start => rfl
  | round _ last ih =>
    subst ih
    exact step?_after last

end Padded

/-- The section that the loop leaves. -/
theorem pad_eq (bare : Bytes) : pad bare = bare ++ padding bare.length := by
  obtain ⟨q, rounds, -, last⟩ := Padded.rounds_finish { bytes := bare, next := 1 }
  rw [← Padded.after_zero] at rounds
  rw [pad, last, rounds.eq_after, Padded.after, Padded.after_zero]
  rfl

/-- A section with `k` bytes of padding, and how the loop puts them there: it ends after that many
rounds, and in all of them the byte that is counted up is the number of the next one. -/
structure PaddedBy (bare : Bytes) (k : Nat) (body : Bytes) : Prop where
  body_eq : body = bare ++ paddingBytes k
  few : k ≤ 7
  whole : body.length % 8 = 0
  counts : ∀ n q, Padded.Rounds { bytes := bare, next := 1 } n q → n ≤ k ∧ q.next.toNat = n + 1
  ends : ∃ q, Padded.Rounds { bytes := bare, next := 1 } k q ∧ q.step? = none ∧ q.bytes = body

theorem paddedBy_pad (bare : Bytes) :
    PaddedBy bare ((8 - bare.length % 8) % 8) (pad bare) := by
  obtain ⟨q, rounds, done, last⟩ := Padded.rounds_finish { bytes := bare, next := 1 }
  have few : (8 - bare.length % 8) % 8 ≤ 7 := by omega
  refine ⟨pad_eq bare, few, ?_, fun n q h => ?_, q, rounds, done, last.symm⟩
  · rw [pad_eq, padding, List.length_append, length_paddingBytes]
    unfold blockSize
    omega
  · have missing : (8 - bare.length % 8) % 8 = q.missing + n := h.missing_eq
    rw [← Padded.after_zero] at h
    rw [h.eq_after, Padded.toNat_next_after bare (by unfold blockSize; omega)]
    omega

end SshKeyring.PrivateSection
