import Mathlib.Data.List.Forall2
import SshKeyring.Proofs.Key.Halves

/-! When two private halves are the same. The comparison of two strings gathers the differences of
all their bytes before it looks at the result, and the comparison of two halves gathers its answers
for the preamble and all parts. Each of the two folds ends well just if it starts well and no step
finds anything amiss, so one difference anywhere is enough. Halves that differ are also written
differently, since what is written tells where each part of it ends. -/

namespace SshKeyring

open Wire

section Folds

variable {α β : Type}

/-- What each step keeps just if it finds nothing amiss, a whole fold keeps just if no step does. -/
theorem foldl_iff {P : β → Prop} {Q : α → Prop} {f : β → α → β}
    (h : ∀ b a, P (f b a) ↔ P b ∧ Q a) (items : List α) (start : β) :
    P (items.foldl f start) ↔ P start ∧ ∀ a ∈ items, Q a := by
  induction items generalizing start with
  | nil => simp
  | cons a items ih => rw [List.foldl_cons, ih, h, List.forall_mem_cons, and_assoc]

theorem eq_iff_zip {l m : List α} :
    l = m ↔ l.length = m.length ∧ ∀ p ∈ l.zip m, p.1 = p.2 := by
  rw [← List.forall₂_eq_eq_eq (α := α), List.forall₂_iff_zip, Prod.forall]

end Folds

namespace PrivateKey

/-- Every byte is looked at, and a difference in one shows in what is gathered. -/
theorem sameBytes_iff {a b : Bytes} : sameBytes a b = true ↔ a = b := by
  have gathered := foldl_iff (P := (· = 0)) (Q := (· = 0)) (f := fun x y : UInt8 => x ||| y)
    (fun _ _ => UInt8.or_eq_zero_iff) (List.zipWith (· ^^^ ·) a b) 0
  rw [sameBytes, Bool.and_eq_true, beq_iff_eq, beq_iff_eq, gathered, eq_iff_zip,
    ← List.map_uncurry_zip_eq_zipWith, List.forall_mem_map]
  simp

/-- The zip of the parts would pass over those that only one half has. Their numbers have been
compared before. -/
theorem same_iff {a b : PrivateKey} :
    a.same b = true ↔ a.type = b.type ∧ a.preamble = b.preamble ∧ a.parts = b.parts := by
  have gathered := foldl_iff (P := (· = true)) (Q := fun p : Bytes × Bytes => p.1 = p.2)
    (f := fun equal p => equal && sameBytes p.1 p.2)
    (fun equal p => by rw [Bool.and_eq_true, sameBytes_iff])
    (List.zip a.parts b.parts) (sameBytes a.preamble b.preamble)
  rw [sameBytes_iff] at gathered
  rw [eq_iff_zip (l := a.parts)]
  unfold same
  split
  · next h =>
    refine iff_of_false Bool.false_ne_true ?_
    rintro ⟨type, -, length, -⟩
    exact h.elim (absurd type) (absurd length)
  · next h =>
    obtain ⟨type, length⟩ := not_or.1 h
    refine gathered.trans ?_
    simp [not_not.1 type, not_not.1 length]

/-- The ways to come by a private half. -/
inductive Made : PrivateKey → Prop
  | ofParts {type : KeyType} {parts : List Bytes} {k : PrivateKey} :
    PrivateKey.ofParts type parts = .ok k → Made k
  | read {input rest : Bytes} {k : PrivateKey} : PrivateKey.read input = .ok (k, rest) → Made k

theorem Made.wellFormed {k : PrivateKey} (h : k.Made) : k.WellFormed := by
  cases h with
  | ofParts h => exact wellFormed_of_ofParts h
  | read h => exact ((read_exact _ _ _).1 h).1.1

theorem bytes_of_short {k : PrivateKey} (hk : ∀ p ∈ k.parts, p.length < countLimit) :
    k.bytes = .ok k.wire :=
  mapError_eq_ok.2 (encode_eq_ok_iff.2 ⟨hk, rfl⟩)

/-- Two private halves count as the same just if the same bytes are written of them, that is just if
they have one type, one preamble and the same parts. -/
theorem same_iff_bytes_eq {a b : PrivateKey} (ha : a.Made) (hb : b.Made)
    (short : ∀ p ∈ a.parts, p.length < countLimit)
    (short' : ∀ p ∈ b.parts, p.length < countLimit) :
    ∃ x y, a.bytes = .ok x ∧ b.bytes = .ok y ∧ (a.same b = true ↔ x = y) ∧
      (x = y ↔ a.type = b.type ∧ a.preamble = b.preamble ∧ a.parts = b.parts) := by
  have written : a.wire = b.wire ↔
      a.type = b.type ∧ a.preamble = b.preamble ∧ a.parts = b.parts := by
    rw [wire_inj ha.wellFormed hb.wellFormed short short']
    exact Iff.of_eq (PrivateKey.mk.injEq ..)
  exact ⟨_, _, bytes_of_short short, bytes_of_short short', same_iff.trans written.symm, written⟩

/-- A security key, with the flags that say whether its owner has to touch it. -/
def withFlags (flags : UInt8) : PrivateKey where
  type := .skEcdsaP256
  preamble := [[1], [2], [3]].flatMap stringBytes ++ [flags]
  parts := [[7], []]

theorem made_withFlags (flags : UInt8) : (withFlags flags).Made := by
  refine .read ((read_exact ((withFlags flags).wire ++ []) _ []).2 ⟨⟨?_, ?_⟩, rfl⟩)
  · exact wellFormed_iff.2 ⟨rfl, [[1], [2], [3]], flags, rfl, by decide, rfl⟩
  · change ∀ b ∈ ([[7], []] : List Bytes), b.length ≤ maxLength
    decide

theorem same_withFlags :
    (withFlags 0).Made ∧ (withFlags 1).Made ∧ (withFlags 0).same (withFlags 1) = false ∧
      ∃ x y, (withFlags 0).bytes = .ok x ∧ (withFlags 1).bytes = .ok y ∧ x ≠ y := by
  obtain ⟨x, y, hx, hy, same, -⟩ := same_iff_bytes_eq (made_withFlags 0) (made_withFlags 1)
    (by decide) (by decide)
  have apart : (withFlags 0).same (withFlags 1) = false := by decide
  exact ⟨made_withFlags 0, made_withFlags 1, apart, x, y, hx, hy,
    mt same.2 (ne_true_of_eq_false apart)⟩

end PrivateKey

end SshKeyring
