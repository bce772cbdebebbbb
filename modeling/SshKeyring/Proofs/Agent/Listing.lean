import SshKeyring.Agent.Message
import SshKeyring.Proofs.Wire

/-! The list of keys in an answer, entry by entry. An entry is a blob and a comment, each a string on
the wire; it is read whatever its blob holds, and left out of the list unless that is the blob of a
supported key. So an entry that is left out takes its own bytes away and no others. -/

namespace SshKeyring

open Wire

/-- An entry as an agent sends it. -/
structure Entry where
  blob : Bytes
  comment : Bytes

namespace Entry

/-- Both strings are of a length that readers take. -/
def Short (e : Entry) : Prop := e.blob.length ≤ maxLength ∧ e.comment.length ≤ maxLength

def wire (e : Entry) : Bytes := stringBytes e.blob ++ stringBytes e.comment

/-- The key of the entry with its comment, if there is a key that the whole blob is read as. -/
def identity? (e : Entry) : Option Identity :=
  match PublicKey.ofBlob e.blob with
  | .ok publicKey => some { publicKey, comment := Utf8.decodeLossy e.comment }
  | .error _ => none

theorem identity?_eq_some_iff {e : Entry} {i : Identity} : e.identity? = some i ↔
    PublicKey.ofBlob e.blob = .ok i.publicKey ∧ Utf8.decodeLossy e.comment = i.comment := by
  obtain ⟨publicKey, comment⟩ := i
  cases h : PublicKey.ofBlob e.blob with
  | ok k => simp [identity?, h]
  | error fault => simp [identity?, h]

/-- The input begins with the number of the entries and with these, all of them short. -/
def Listed (entries : List Entry) (input rest : Bytes) : Prop :=
  entries.length < countLimit ∧ (∀ e ∈ entries, e.Short) ∧
    input = putWord (UInt32.ofNat entries.length) ++ entries.flatMap wire ++ rest

end Entry

namespace Identity

theorem readComment_takes :
    readComment.Takes (fun b : Bytes => b.length ≤ maxLength) stringBytes Utf8.decodeLossy := by
  intro input comment rest
  refine (Reader.bind_eq_ok_iff _ _ _ _).trans ⟨?_, ?_⟩
  · rintro ⟨b, left, hb, h⟩
    obtain ⟨hl, rfl⟩ := (string_exact.mapError _ _ _ _).1 hb
    cases h
    exact ⟨b, hl, rfl, rfl⟩
  · rintro ⟨b, hl, rfl, rfl⟩
    exact ⟨b, rest, (string_exact.mapError _).read hl rest, rfl⟩

theorem readEntry_takes : readEntry.Takes Entry.Short Entry.wire Entry.identity? := by
  intro input i rest
  refine (Reader.bind_eq_ok_iff _ _ _ _).trans ⟨?_, ?_⟩
  · rintro ⟨blob, left, hblob, h⟩
    obtain ⟨hb, rfl⟩ := (string_exact.mapError _ _ _ _).1 hblob
    obtain ⟨comment, left, hcomment, hend⟩ := (Reader.bind_eq_ok_iff _ _ _ _).1 h
    obtain ⟨b, hc, rfl, rfl⟩ := (readComment_takes _ _ _).1 hcomment
    refine ⟨⟨blob, b⟩, ⟨hb, hc⟩, ?_⟩
    rw [Entry.identity?, Entry.wire, List.append_assoc]
    cases hk : PublicKey.ofBlob blob with
    | ok k =>
      rw [hk] at hend
      cases hend
      exact ⟨rfl, rfl⟩
    | error e =>
      rw [hk] at hend
      cases hend
      exact ⟨rfl, rfl⟩
  · rintro ⟨⟨blob, b⟩, ⟨hb, hc⟩, rfl, rfl⟩
    rw [Entry.identity?, Entry.wire, List.append_assoc]
    refine ⟨blob, _, (string_exact.mapError _).read hb _, ?_⟩
    refine (Reader.bind_eq_ok_iff _ _ _ _).2 ⟨_, rest, readComment_takes.read hc rest, ?_⟩
    cases hk : PublicKey.ofBlob blob with
    | ok k => rfl
    | error e => rfl

theorem readList_eq_ok_iff {input rest : Bytes} {held : List Identity} :
    readList input = .ok (held, rest) ↔ ∃ entries, Entry.Listed entries input rest ∧
      held = entries.filterMap Entry.identity? := by
  refine (Reader.bind_eq_ok_iff _ _ _ _).trans ⟨?_, ?_⟩
  · rintro ⟨count, left, hcount, h⟩
    obtain ⟨-, rfl⟩ := (word_exact.mapError _ _ _ _).1 hcount
    obtain ⟨found, left, hfound, hend⟩ := (Reader.bind_eq_ok_iff _ _ _ _).1 h
    obtain ⟨entries, ⟨hn, short⟩, rfl, rfl⟩ := (readEntry_takes.times _ _ _ _).1 hfound
    cases hend
    refine ⟨entries, ⟨hn ▸ count.toNat_lt, short, ?_⟩, ?_⟩
    · rw [hn, UInt32.ofNat_toNat, List.append_assoc]
    · rw [List.filterMap_map]
      rfl
  · rintro ⟨entries, ⟨hn, short, rfl⟩, rfl⟩
    rw [List.append_assoc]
    refine ⟨_, _, (word_exact.mapError _).read trivial _, ?_⟩
    rw [toNat_ofNat_count hn]
    refine (Reader.bind_eq_ok_iff _ _ _ _).2
      ⟨_, rest, (readEntry_takes.times _).read ⟨rfl, short⟩ rest, ?_⟩
    rw [List.filterMap_map]
    rfl

end Identity

namespace Response

theorem read_identities_eq_ok_iff {input rest : Bytes} {answer : Response} :
    read (12 :: input) = .ok (answer, rest) ↔ ∃ entries, Entry.Listed entries input rest ∧
      answer = .identities (entries.filterMap Entry.identity?) := by
  refine (Reader.bind_eq_ok_iff _ _ _ _).trans ⟨?_, ?_⟩
  · rintro ⟨number, left, hnumber, h⟩
    cases hnumber
    obtain ⟨held, _, hheld, hend⟩ := (Reader.bind_eq_ok_iff _ _ _ _).1 h
    cases hend
    obtain ⟨entries, listed, rfl⟩ := Identity.readList_eq_ok_iff.1 hheld
    exact ⟨entries, listed, rfl⟩
  · rintro ⟨entries, listed, rfl⟩
    have list := Identity.readList_eq_ok_iff.2 ⟨entries, listed, rfl⟩
    exact ⟨12, _, rfl, (Reader.bind_eq_ok_iff _ _ _ _).2 ⟨_, rest, list, rfl⟩⟩

/-- An input that begins with the number of a list of keys is read just where the number of some
entries and these follow. The keys in the answer are those of the entries that have one, in their
order, and what is behind the last entry is left. Any other input is an error. -/
theorem read_identities (input : Bytes) :
    (∀ answer rest, read (12 :: input) = .ok (answer, rest) ↔ ∃ entries,
      Entry.Listed entries input rest ∧ answer = .identities (entries.filterMap Entry.identity?)) ∧
      ((∃ fault, read (12 :: input) = .error fault) ↔
        ¬ ∃ entries rest, Entry.Listed entries input rest) := by
  refine ⟨fun answer rest => read_identities_eq_ok_iff, ?_, ?_⟩
  · rintro ⟨fault, hfault⟩ ⟨entries, rest, listed⟩
    have hok := read_identities_eq_ok_iff.2 ⟨entries, listed, rfl⟩
    rw [hfault] at hok
    cases hok
  · intro none
    cases hr : read (12 :: input) with
    | error fault => exact ⟨fault, rfl⟩
    | ok out =>
      obtain ⟨answer, rest⟩ := out
      obtain ⟨entries, listed, -⟩ := read_identities_eq_ok_iff.1 hr
      exact absurd ⟨entries, rest, listed⟩ none

end Response

end SshKeyring
