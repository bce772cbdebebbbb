import SshKeyring.Proofs.Agent.Message
import SshKeyring.Proofs.Key.Container

/-! The length of what will be written, known before it is. Lengths that are added up with a check
of each sum come to one check of the whole, since no part of a sum is larger than the sum. So a
message is as long as was said of it if its fields are, and a list if its items are. -/

namespace SshKeyring

open Wire

namespace Wire

/-- The length found for what can be written is the number of bytes that are, and is refused only
where no memory could hold them. -/
def Measures {α : Type} (write : α → Except WireError Bytes) (length : α → Except WireError Nat) :
    Prop :=
  ∀ a out, write a = .ok out →
    length a = if out.length < sizeLimit then .ok out.length else .error .length

theorem checkedSum_left (m n : Nat) : (do checkedSum (← checked m) n) = checked (m + n) := by
  by_cases h : m < sizeLimit
  · rw [checked, if_pos h]
    rfl
  · have whole : ¬ m + n < sizeLimit := fun hs => h (Nat.lt_of_le_of_lt (Nat.le_add_right m n) hs)
    rw [checked, if_neg h, checked, if_neg whole]
    rfl

theorem checkedSum_right (m n : Nat) : (do checkedSum m (← checked n)) = checked (m + n) := by
  rw [Nat.add_comm, ← checkedSum_left]
  simp only [checkedSum, Nat.add_comm]

theorem checkedSum_of_checked (m n : Nat) :
    (do let x ← checked m; let y ← checked n; checkedSum x y) = checked (m + n) := by
  simp only [checkedSum_right]
  exact checkedSum_left m n

section

variable {α : Type} {write : α → Except WireError Bytes} {length : α → Except WireError Nat}

theorem Measures.eq_checked (h : Measures write length) {a : α} {out : Bytes}
    (hw : write a = .ok out) : length a = checked out.length := h a out hw

/-- By induction over the items, with what has been written before them in front. -/
theorem Measures.total (h : Measures write length) {items : List α} {outs : List Bytes}
    (hw : items.mapM write = .ok outs) (front : Bytes) :
    (do checkedTotal length (← checked front.length) items) =
      checked (front ++ outs.flatten).length := by
  induction items generalizing front outs with
  | nil =>
    obtain rfl := pure_eq_ok.1 hw
    simp [checkedTotal]
  | cons a items ih =>
    simp only [List.mapM_cons, bind_eq_ok, pure_eq_ok] at hw
    obtain ⟨out, ha, outs, hitems, rfl⟩ := hw
    rw [List.flatten_cons, ← List.append_assoc, ← ih hitems, List.length_append,
      ← checkedSum_of_checked, ← h.eq_checked ha]
    simp [checkedTotal, List.foldlM_cons, bind_assoc]

end

theorem length_of_putCount {n : Nat} {out : Bytes} (h : putCount n = .ok out) :
    out.length = 4 := by
  unfold putCount at h
  split at h
  · obtain rfl := Except.ok.inj h
    exact length_putWord _
  · cases h

theorem putString_measures : Measures putString checkedStringSize := by
  intro b out h
  obtain ⟨-, rfl⟩ := putString_eq_ok_iff.1 h
  rw [length_stringBytes]
  rfl

theorem putText_measures : Measures putText checkedTextSize :=
  fun s => putString_measures (Utf8.encode s)

end Wire

namespace PublicKey

theorem encode_measures : Measures encode checkedLength := by
  intro k out h
  simp only [encode, putStrings, bind_eq_ok, pure_eq_ok] at h
  obtain ⟨name, hname, _, ⟨parts, hparts, rfl⟩, rfl⟩ := h
  rw [checkedLength, putText_measures.eq_checked hname]
  exact putString_measures.total hparts name

/-- The blob of a key behind a word that tells how long it is. -/
def Counts (k : PublicKey) (b : Bytes) : Prop :=
  ∃ n blob, k.encode = .ok blob ∧ n.toNat = blob.length ∧ b = putWord n ++ blob

theorem counts_of_encodeCounted {k : PublicKey} {b : Bytes} (h : k.encodeCounted = .ok b) :
    k.Counts b := by
  obtain ⟨fits, short, rfl⟩ := Container.encodeCounted_eq_ok_iff.1 h
  exact ⟨_, k.wire, encode_eq_ok_iff.2 ⟨short, rfl⟩, toNat_ofNat_count fits, rfl⟩

theorem encodeCounted_measures : Measures encodeCounted checkedCountedLength := by
  intro k out h
  obtain ⟨n, blob, hblob, -, rfl⟩ := counts_of_encodeCounted h
  rw [checkedCountedLength, encode_measures.eq_checked hblob, List.length_append, length_putWord]
  exact checkedSum_right 4 blob.length

end PublicKey

theorem PrivateKey.encode_measures : Measures encode checkedLength := by
  intro k out h
  simp only [encode, putStrings, bind_eq_ok, pure_eq_ok] at h
  obtain ⟨name, hname, _, ⟨parts, hparts, rfl⟩, rfl⟩ := h
  rw [checkedLength, putText_measures.eq_checked hname, ← bind_assoc, checkedSum_left,
    ← List.length_append]
  exact putString_measures.total hparts (name ++ k.preamble)

theorem Addition.encode_measures : Measures encode checkedLength := by
  intro a out h
  simp only [encode, bind_eq_ok, pure_eq_ok] at h
  obtain ⟨key, hkey, comment, hcomment, rfl⟩ := h
  rw [checkedLength, PrivateKey.encode_measures.eq_checked hkey,
    putText_measures.eq_checked hcomment, List.length_append]
  exact checkedSum_of_checked key.length comment.length

theorem Constraint.encode_measures : Measures (fun c => .ok (encode c)) checkedLength := by
  intro c out h
  obtain rfl := Except.ok.inj h
  rw [length_encode]
  cases c <;> rfl

theorem ConstrainedAddition.encode_measures : Measures encode checkedLength := by
  intro a out h
  simp only [encode, bind_eq_ok, pure_eq_ok] at h
  obtain ⟨addition, haddition, rfl⟩ := h
  have written : a.constraints.mapM (fun c => .ok c.encode) =
      (.ok (a.constraints.map Constraint.encode) : Except WireError (List Bytes)) :=
    List.mapM_pure
  rw [checkedLength, Addition.encode_measures.eq_checked haddition, List.flatMap_def]
  exact Constraint.encode_measures.total written addition

theorem Identity.encode_measures : Measures encode checkedLength := by
  intro i out h
  simp only [encode, bind_eq_ok, pure_eq_ok] at h
  obtain ⟨key, hkey, comment, hcomment, rfl⟩ := h
  rw [checkedLength, PublicKey.encodeCounted_measures.eq_checked hkey,
    putText_measures.eq_checked hcomment, List.length_append]
  exact checkedSum_of_checked key.length comment.length

namespace Request

theorem encodeFields_measures : Measures encodeFields checkedFieldsLength := by
  intro r out h
  cases r with
  | requestIdentities =>
    obtain rfl := Except.ok.inj h
    rfl
  | addIdentity a => exact Addition.encode_measures a out h
  | removeIdentity k => exact PublicKey.encodeCounted_measures k out h
  | removeAllIdentities =>
    obtain rfl := Except.ok.inj h
    rfl
  | addConstrained a => exact ConstrainedAddition.encode_measures a out h

theorem encode_measures : Measures encode checkedLength := by
  intro r out h
  simp only [encode, bind_eq_ok, pure_eq_ok] at h
  obtain ⟨fields, hfields, rfl⟩ := h
  rw [checkedLength, encodeFields_measures.eq_checked hfields, List.length_cons, Nat.add_comm]
  exact checkedSum_right 1 fields.length

end Request

theorem Response.encode_measures : Measures encode checkedLength := by
  intro r out h
  cases r with
  | failure =>
    obtain rfl := Except.ok.inj h
    rfl
  | success =>
    obtain rfl := Except.ok.inj h
    rfl
  | identities held =>
    simp only [encode, bind_eq_ok, pure_eq_ok] at h
    obtain ⟨count, hcount, outs, houts, rfl⟩ := h
    have front : (12 :: count).length = 5 := congrArg (· + 1) (length_of_putCount hcount)
    have total := Identity.encode_measures.total houts (12 :: count)
    rw [front] at total
    exact total

/-- For whatever can be written of a message or of its parts, the length that is found beforehand is
the number of bytes that are written. Where a key stands behind its length, be it by itself, in a
request to remove it, in an entry of a list or in a container, the word in front is the length of the
blob that follows. -/
theorem length_known_before_writing :
    Measures PublicKey.encode PublicKey.checkedLength ∧
      Measures PrivateKey.encode PrivateKey.checkedLength ∧
      Measures Addition.encode Addition.checkedLength ∧
      Measures ConstrainedAddition.encode ConstrainedAddition.checkedLength ∧
      Measures PublicKey.encodeCounted PublicKey.checkedCountedLength ∧
      Measures Identity.encode Identity.checkedLength ∧
      Measures (fun c => .ok (Constraint.encode c)) Constraint.checkedLength ∧
      Measures Request.encode Request.checkedLength ∧
      Measures Response.encode Response.checkedLength ∧
      (∀ k b, PublicKey.encodeCounted k = .ok b → k.Counts b) ∧
      (∀ k b, (Request.removeIdentity k).encode = .ok b → ∃ counted, k.Counts counted ∧
        b = 18 :: counted) ∧
      (∀ i b, Identity.encode i = .ok b → ∃ counted comment, i.publicKey.Counts counted ∧
        putText i.comment = .ok comment ∧ b = counted ++ comment) ∧
      ∀ c b, Container.encode c = .ok b → ∃ cipher kdf options counted body,
        putText c.cipher = .ok cipher ∧ putText c.kdf = .ok kdf ∧
        putString c.kdfOptions = .ok options ∧ c.publicKey.Counts counted ∧
        putString c.body = .ok body ∧
        b = Container.magic ++ cipher ++ kdf ++ options ++ putWord 1 ++ counted ++ body := by
  refine ⟨PublicKey.encode_measures, PrivateKey.encode_measures, Addition.encode_measures,
    ConstrainedAddition.encode_measures, PublicKey.encodeCounted_measures,
    Identity.encode_measures, Constraint.encode_measures, Request.encode_measures,
    Response.encode_measures, fun k b => PublicKey.counts_of_encodeCounted,
    fun k b removal => ?_, fun i b entry => ?_, fun c b container => ?_⟩
  · simp only [Request.encode, bind_eq_ok, pure_eq_ok] at removal
    obtain ⟨counted, hcounted, rfl⟩ := removal
    exact ⟨counted, PublicKey.counts_of_encodeCounted hcounted, rfl⟩
  · simp only [Identity.encode, bind_eq_ok, pure_eq_ok] at entry
    obtain ⟨counted, hcounted, comment, hcomment, rfl⟩ := entry
    exact ⟨counted, comment, PublicKey.counts_of_encodeCounted hcounted, hcomment, rfl⟩
  · simp only [Container.encode, bind_eq_ok, pure_eq_ok] at container
    obtain ⟨cipher, hcipher, kdf, hkdf, options, hoptions, counted, hcounted, body, hbody, rfl⟩ :=
      container
    exact ⟨cipher, kdf, options, counted, body, hcipher, hkdf, hoptions,
      PublicKey.counts_of_encodeCounted hcounted, hbody, rfl⟩

end SshKeyring
