import Mathlib.Data.List.Basic
import SshKeyring.Proofs.Agent.Listing
import SshKeyring.Proofs.Key.Container

/-! Messages are read back as they were written, with nothing left of them, as long as their keys
are well-formed and readers take strings of the lengths they have. What is read as a request is
always such a message, so it can be written again. That gives the bytes it was read off, unless
the string of a key to remove counts more of them than the key has. -/

namespace SshKeyring

open Wire

namespace Constraint

/-- A constraint in front of the others is the first that is found. -/
theorem readAll_append (c : Constraint) (done : List Constraint) (rest : Bytes) :
    readAll done (c.encode ++ rest) = readAll (c :: done) rest := by
  cases c with
  | confirm => rfl
  | lifetime seconds =>
    have word := word_exact.read (a := seconds) trivial rest
    match hw : putWord seconds, length_putWord seconds with
    | [a, b, c, d], _ =>
      simp only [hw, Wire.word, List.cons_append, List.nil_append, Except.ok.injEq, Prod.mk.injEq,
        and_true] at word
      simp only [encode, hw, code, List.cons_append, List.nil_append, readAll, word]

theorem readAll_flatMap (constraints done : List Constraint) :
    readAll done (constraints.flatMap encode) = .ok (done.reverse ++ constraints) := by
  induction constraints generalizing done with
  | nil => simp [readAll]
  | cons c constraints ih =>
    rw [List.flatMap_cons, readAll_append, ih]
    simp

theorem readAll_eq_ok_iff {done out : List Constraint} {input : Bytes} :
    readAll done input = .ok out ↔
      ∃ constraints, out = done.reverse ++ constraints ∧ input = constraints.flatMap encode := by
  constructor
  · intro h
    fun_induction readAll done input with
    | case1 done =>
      cases h
      exact ⟨[], by simp⟩
    | case2 done a b c d rest ih =>
      obtain ⟨constraints, rfl, rfl⟩ := ih h
      have seconds : putWord (UInt32.ofNat (Bytes.toNat [a, b, c, d])) = [a, b, c, d] :=
        putWord_toNat rfl
      refine ⟨.lifetime (UInt32.ofNat (Bytes.toNat [a, b, c, d])) :: constraints, by simp, ?_⟩
      rw [List.flatMap_cons, encode, seconds]
      rfl
    | case3 => cases h
    | case4 done rest ih =>
      obtain ⟨constraints, rfl, rfl⟩ := ih h
      exact ⟨.confirm :: constraints, by simp, rfl⟩
    | case5 => cases h
  · rintro ⟨constraints, rfl, rfl⟩
    exact readAll_flatMap constraints done

end Constraint

/-! ### Keys in messages -/

namespace Addition

/-- A private key and a comment that readers take. -/
def Readable (a : Addition) : Prop :=
  a.privateKey.Readable ∧ (Utf8.encode a.comment).length ≤ maxLength

def wire (a : Addition) : Bytes := a.privateKey.wire ++ stringBytes (Utf8.encode a.comment)

theorem encode_of_readable {a : Addition} (h : a.Readable) : a.encode = .ok a.wire :=
  bind_eq_ok.2 ⟨_, PrivateKey.encode_of_readable h.1, bind_eq_ok.2
    ⟨_, putText_eq_ok_iff.2 ⟨lt_countLimit h.2, rfl⟩, rfl⟩⟩

/-- What is written with a well-formed key is readable, if it is no longer than a string may be. -/
theorem readable_of_encode {a : Addition} {b : Bytes} (hk : a.privateKey.WellFormed)
    (h : a.encode = .ok b) (hl : b.length ≤ maxLength) : a.Readable := by
  simp only [encode, bind_eq_ok, PrivateKey.encode_eq_ok_iff, putText_eq_ok_iff, pure_eq_ok] at h
  obtain ⟨_, ⟨-, rfl⟩, _, ⟨-, rfl⟩, rfl⟩ := h
  rw [List.length_append, length_stringBytes, stringSize] at hl
  refine ⟨⟨hk, fun part hpart => ?_⟩, by omega⟩
  have sub := PrivateKey.length_le_of_mem_parts hpart
  omega

theorem read_exact : read.Exact Readable wire := by
  have all := (PrivateKey.read_exact.mapError MessageError.key).bind
    (fun privateKey _ => (text_exact.mapError MessageError.wire).bind
      (fun comment _ => Reader.pure_exact { privateKey, comment : Addition }) Addition.comment
      (by rintro _ _ rfl; rfl)) Addition.privateKey (by
    rintro _ _ ⟨-, h⟩
    rw [h])
  refine all.congr (fun a => ?_) (fun a _ => ?_)
  · simp [Readable]
  · rw [wire, List.append_nil]

end Addition

namespace ConstrainedAddition

def wire (a : ConstrainedAddition) : Bytes :=
  a.addition.wire ++ a.constraints.flatMap Constraint.encode

theorem encode_of_readable {a : ConstrainedAddition} (h : a.addition.Readable) :
    a.encode = .ok a.wire :=
  bind_eq_ok.2 ⟨_, Addition.encode_of_readable h, rfl⟩

/-- The constraints run to the end of the input, so nothing is left behind them. -/
theorem read_eq_ok_iff {input rest : Bytes} {a : ConstrainedAddition} :
    read input = .ok (a, rest) ↔ a.addition.Readable ∧ rest = [] ∧ input = a.wire := by
  refine (Reader.bind_eq_ok_iff _ _ _ _).trans ⟨?_, ?_⟩
  · rintro ⟨addition, left, ha, h⟩
    obtain ⟨readable, rfl⟩ := (Addition.read_exact _ _ _).1 ha
    obtain ⟨constraints, hc, h⟩ := map_eq_ok.1 h
    cases h
    obtain ⟨_, rfl, rfl⟩ := Constraint.readAll_eq_ok_iff.1 hc
    exact ⟨readable, rfl, rfl⟩
  · rintro ⟨ha, rfl, rfl⟩
    exact ⟨_, _, Addition.read_exact.read ha _,
      map_eq_ok.2 ⟨_, Constraint.readAll_eq_ok_iff.2 ⟨_, rfl, rfl⟩, rfl⟩⟩

end ConstrainedAddition

/-- A public key is read off a string that counts as many bytes as the key has, or more. -/
theorem readCountedKey_eq_ok_iff {input rest : Bytes} {k : PublicKey} :
    readCountedKey input = .ok (k, rest) ↔ k.WellFormed ∧ ∃ n, k.wire.length ≤ n ∧
      n ≤ maxLength ∧ input = putWord (UInt32.ofNat n) ++ (k.wire ++ rest) := by
  refine (mapError_eq_ok.trans (within_eq_ok_iff PublicKey.read_exact _)).trans
    (and_congr_left ?_)
  rintro ⟨n, hl, hn, -⟩
  exact ⟨And.left, fun hk => PublicKey.readable_of_length_le hk (Nat.le_trans hl hn)⟩

/-- A public key whose blob is no longer than readers take a string. -/
def PublicKey.ReadableBlob (k : PublicKey) : Prop := k.WellFormed ∧ k.encodedLength ≤ maxLength

namespace PublicKey.ReadableBlob

variable {k : PublicKey}

theorem length_wire_le (h : k.ReadableBlob) : k.wire.length ≤ maxLength :=
  k.length_wire ▸ h.2

theorem readable (h : k.ReadableBlob) : k.Readable := readable_of_length_le h.1 h.length_wire_le

theorem encodeCounted (h : k.ReadableBlob) : k.encodeCounted = .ok (stringBytes k.wire) :=
  Container.encodeCounted_eq_ok_iff.2 ⟨lt_countLimit h.length_wire_le,
    fun b hb => lt_countLimit (h.readable.2 b hb), rfl⟩

end PublicKey.ReadableBlob

namespace Identity

/-- A public key and a comment that readers take. -/
def Readable (i : Identity) : Prop :=
  i.publicKey.ReadableBlob ∧ (Utf8.encode i.comment).length ≤ maxLength

def wire (i : Identity) : Bytes :=
  stringBytes i.publicKey.wire ++ stringBytes (Utf8.encode i.comment)

theorem encode_of_readable {i : Identity} (h : i.Readable) : i.encode = .ok i.wire :=
  bind_eq_ok.2 ⟨_, h.1.encodeCounted, bind_eq_ok.2
    ⟨_, putText_eq_ok_iff.2 ⟨lt_countLimit h.2, rfl⟩, rfl⟩⟩

theorem readable_of_encode {i : Identity} {b : Bytes} (hk : i.publicKey.WellFormed)
    (h : i.encode = .ok b) (hl : b.length ≤ maxLength) : i.Readable := by
  simp only [encode, bind_eq_ok, Container.encodeCounted_eq_ok_iff, putText_eq_ok_iff,
    pure_eq_ok] at h
  obtain ⟨_, ⟨-, -, rfl⟩, _, ⟨-, rfl⟩, rfl⟩ := h
  simp only [List.length_append, length_stringBytes, stringSize, PublicKey.length_wire] at hl
  exact ⟨⟨hk, by omega⟩, by omega⟩

def entry (i : Identity) : Entry where
  blob := i.publicKey.wire
  comment := Utf8.encode i.comment

theorem identity?_entry {i : Identity} (h : i.Readable) : i.entry.identity? = some i :=
  Entry.identity?_eq_some_iff.2
    ⟨PublicKey.ofBlob_wire h.1.1 h.1.length_wire_le, Utf8.decodeLossy_encode i.comment⟩

/-- Identities of which none is left out are read back in their order. -/
theorem readList_wire {held : List Identity} (h : ∀ i ∈ held, i.Readable)
    (hn : held.length < countLimit) (rest : Bytes) :
    readList (putWord (UInt32.ofNat held.length) ++ held.flatMap wire ++ rest) =
      .ok (held, rest) := by
  refine readList_eq_ok_iff.2 ⟨held.map entry, ⟨?_, ?_, ?_⟩, ?_⟩
  · rwa [List.length_map]
  · exact List.forall_mem_map.2 fun i hi => ⟨(h i hi).1.length_wire_le, (h i hi).2⟩
  · rw [List.length_map, List.flatMap_map]
    rfl
  · have whole : (held.map entry).filterMap Entry.identity? = held.filterMap some := by
      rw [List.filterMap_map]
      exact List.filterMap_congr fun i hi => identity?_entry (h i hi)
    rw [whole, List.filterMap_some]

theorem mapM_encode {held : List Identity} (h : ∀ i ∈ held, i.Readable) :
    held.mapM encode = .ok (held.map wire) := by
  induction held with
  | nil => rfl
  | cons i held ih =>
    have rest := ih fun j hj => h j (by simp [hj])
    rw [List.mapM_cons, encode_of_readable (h i (by simp)), rest]
    rfl

theorem exists_of_mapM_encode {held : List Identity} {outs : List Bytes}
    (h : held.mapM encode = .ok outs) {i : Identity} (hi : i ∈ held) :
    ∃ b ∈ outs, i.encode = .ok b := by
  induction held generalizing outs with
  | nil => cases hi
  | cons j held ih =>
    simp only [List.mapM_cons, bind_eq_ok, pure_eq_ok] at h
    obtain ⟨b, hb, rest, hrest, rfl⟩ := h
    obtain rfl | hi := List.mem_cons.1 hi
    · exact ⟨b, List.mem_cons_self, hb⟩
    · obtain ⟨c, hc, he⟩ := ih hrest hi
      exact ⟨c, List.mem_cons_of_mem _ hc, he⟩

end Identity

/-! ### Whole messages -/

namespace Request

/-- A request with keys and comments that readers take. -/
def Readable : Request → Prop
  | .requestIdentities => True
  | .addIdentity a => a.Readable
  | .removeIdentity k => k.ReadableBlob
  | .removeAllIdentities => True
  | .addConstrained a => a.addition.Readable

def fields : Request → Bytes
  | .requestIdentities => []
  | .addIdentity a => a.wire
  | .removeIdentity k => stringBytes k.wire
  | .removeAllIdentities => []
  | .addConstrained a => a.wire

theorem encode_of_readable {r : Request} (h : r.Readable) :
    r.encode = .ok (r.number :: r.fields) := by
  refine bind_eq_ok.2 ⟨r.fields, ?_, rfl⟩
  cases r with
  | requestIdentities => rfl
  | addIdentity a => exact Addition.encode_of_readable h
  | removeIdentity k => exact PublicKey.ReadableBlob.encodeCounted h
  | removeAllIdentities => rfl
  | addConstrained a => exact ConstrainedAddition.encode_of_readable h

/-- The bytes that are read as the fields of a request with `rest` left. They are those that are
written, but for two things: the string of a key to remove may count more bytes than the key has,
and constraints leave nothing. -/
def FieldsRead : Request → Bytes → Bytes → Prop
  | .removeIdentity k, input, rest => ∃ n, k.wire.length ≤ n ∧ n ≤ maxLength ∧
      input = putWord (UInt32.ofNat n) ++ (k.wire ++ rest)
  | .addConstrained a, input, rest => rest = [] ∧ input = a.wire
  | r, input, rest => input = r.fields ++ rest

theorem fieldsRead_fields {r : Request} (h : r.Readable) : r.FieldsRead r.fields [] := by
  cases r with
  | requestIdentities => rfl
  | addIdentity a => exact (List.append_nil _).symm
  | removeIdentity k => exact ⟨_, Nat.le_refl _, h.length_wire_le, by rw [List.append_nil]; rfl⟩
  | removeAllIdentities => rfl
  | addConstrained a => exact ⟨rfl, rfl⟩

/-- A request is read off its number and its fields, and off nothing else. -/
theorem read_eq_ok_iff {input rest : Bytes} {r : Request} : read input = .ok (r, rest) ↔
    r.Readable ∧ ∃ left, input = r.number :: left ∧ r.FieldsRead left rest := by
  refine (Reader.bind_eq_ok_iff _ _ _ _).trans ⟨?_, ?_⟩
  · rintro ⟨number, left, hnumber, h⟩
    obtain ⟨-, rfl⟩ := (byte_exact.mapError _ _ _ _).1 hnumber
    split at h
    · cases h
      exact ⟨trivial, _, rfl, rfl⟩
    · obtain ⟨a, _, ha, h⟩ := (Reader.bind_eq_ok_iff _ _ _ _).1 h
      cases h
      obtain ⟨readable, rfl⟩ := (Addition.read_exact _ _ _).1 ha
      exact ⟨readable, _, rfl, rfl⟩
    · obtain ⟨k, _, hk, h⟩ := (Reader.bind_eq_ok_iff _ _ _ _).1 h
      cases h
      obtain ⟨formed, n, hl, hn, rfl⟩ := readCountedKey_eq_ok_iff.1 hk
      exact ⟨⟨formed, k.length_wire ▸ Nat.le_trans hl hn⟩, _, rfl, n, hl, hn, rfl⟩
    · cases h
      exact ⟨trivial, _, rfl, rfl⟩
    · obtain ⟨a, _, ha, h⟩ := (Reader.bind_eq_ok_iff _ _ _ _).1 h
      cases h
      obtain ⟨readable, rfl, rfl⟩ := ConstrainedAddition.read_eq_ok_iff.1 ha
      exact ⟨readable, _, rfl, rfl, rfl⟩
    · cases h
  · rintro ⟨hr, left, rfl, hleft⟩
    refine ⟨r.number, left, rfl, ?_⟩
    cases r with
    | requestIdentities =>
      obtain rfl := hleft
      rfl
    | addIdentity a =>
      exact (Reader.bind_eq_ok_iff _ _ _ _).2 ⟨a, _, (Addition.read_exact _ _ _).2 ⟨hr, hleft⟩, rfl⟩
    | removeIdentity k =>
      exact (Reader.bind_eq_ok_iff _ _ _ _).2
        ⟨k, _, readCountedKey_eq_ok_iff.2 ⟨hr.1, hleft⟩, rfl⟩
    | removeAllIdentities =>
      obtain rfl := hleft
      rfl
    | addConstrained a =>
      exact (Reader.bind_eq_ok_iff _ _ _ _).2
        ⟨a, _, ConstrainedAddition.read_eq_ok_iff.2 ⟨hr, hleft⟩, rfl⟩

theorem read_fields {r : Request} (h : r.Readable) :
    read (r.number :: r.fields) = .ok (r, []) :=
  read_eq_ok_iff.2 ⟨h, _, rfl, fieldsRead_fields h⟩

theorem readable_of_read {input rest : Bytes} {r : Request} (h : read input = .ok (r, rest)) :
    r.Readable :=
  (read_eq_ok_iff.1 h).1

/-- The key of a request is well-formed. -/
def WellFormed : Request → Prop
  | .requestIdentities => True
  | .addIdentity a => a.privateKey.WellFormed
  | .removeIdentity k => k.WellFormed
  | .removeAllIdentities => True
  | .addConstrained a => a.addition.privateKey.WellFormed

theorem readable_of_encode {r : Request} {b : Bytes} (hw : r.WellFormed) (h : r.encode = .ok b)
    (hl : b.length ≤ maxLength) : r.Readable := by
  obtain ⟨front, hfields, h⟩ := bind_eq_ok.1 h
  obtain rfl := pure_eq_ok.1 h
  rw [List.length_cons] at hl
  cases r with
  | requestIdentities => trivial
  | addIdentity a => exact Addition.readable_of_encode hw hfields (by omega)
  | removeIdentity k =>
    obtain ⟨-, -, rfl⟩ := Container.encodeCounted_eq_ok_iff.1 hfields
    rw [length_stringBytes, stringSize, PublicKey.length_wire] at hl
    exact ⟨hw, by omega⟩
  | removeAllIdentities => trivial
  | addConstrained a =>
    obtain ⟨addition, ha, h⟩ := bind_eq_ok.1 hfields
    obtain rfl := pure_eq_ok.1 h
    rw [List.length_append] at hl
    exact Addition.readable_of_encode hw ha (by omega)

end Request

namespace Response

/-- An answer with keys and comments that readers take, and with no more keys than can be
counted. -/
def Readable : Response → Prop
  | .failure => True
  | .success => True
  | .identities held => (∀ i ∈ held, i.Readable) ∧ held.length < countLimit

def fields : Response → Bytes
  | .failure => []
  | .success => []
  | .identities held => putWord (UInt32.ofNat held.length) ++ held.flatMap Identity.wire

theorem encode_of_readable {r : Response} (h : r.Readable) :
    r.encode = .ok (r.number :: r.fields) := by
  cases r with
  | failure => rfl
  | success => rfl
  | identities held =>
    refine bind_eq_ok.2 ⟨putWord (UInt32.ofNat held.length), if_pos h.2, ?_⟩
    refine bind_eq_ok.2 ⟨held.map Identity.wire, Identity.mapM_encode h.1, ?_⟩
    rw [← List.flatMap_def]
    rfl

theorem read_fields {r : Response} (h : r.Readable) :
    read (r.number :: r.fields) = .ok (r, []) := by
  refine (Reader.bind_eq_ok_iff _ _ _ _).2 ⟨r.number, r.fields, rfl, ?_⟩
  cases r with
  | failure => rfl
  | success => rfl
  | identities held =>
    have list := Identity.readList_wire h.1 h.2 []
    rw [List.append_nil] at list
    exact (Reader.bind_eq_ok_iff _ _ _ _).2 ⟨held, [], list, rfl⟩

/-- The keys of an answer are well-formed. -/
def WellFormed : Response → Prop
  | .failure => True
  | .success => True
  | .identities held => ∀ i ∈ held, i.publicKey.WellFormed

theorem readable_of_encode {a : Response} {b : Bytes} (hw : a.WellFormed) (h : a.encode = .ok b)
    (hl : b.length ≤ maxLength) : a.Readable := by
  cases a with
  | failure => trivial
  | success => trivial
  | identities held =>
    simp only [encode, bind_eq_ok, pure_eq_ok] at h
    obtain ⟨count, hcount, outs, houts, rfl⟩ := h
    have fits : held.length < countLimit := by
      unfold putCount at hcount
      by_contra hlimit
      rw [if_neg hlimit] at hcount
      cases hcount
    refine ⟨fun i hi => ?_, fits⟩
    obtain ⟨c, hc, he⟩ := Identity.exists_of_mapM_encode houts hi
    have sub := (List.sublist_flatten_of_mem hc).length_le
    rw [List.length_cons, List.length_append] at hl
    exact Identity.readable_of_encode (hw i hi) he (by omega)

end Response

/-- A message that readers take is read back from what is written of it, with no byte left, and a
request that was read off any bytes is one that can be written and read back. -/
theorem read_messages :
    (∀ r : Request, r.Readable → ∃ b, r.encode = .ok b ∧ Request.read b = .ok (r, [])) ∧
      (∀ r : Response, r.Readable → ∃ b, r.encode = .ok b ∧ Response.read b = .ok (r, [])) ∧
      ∀ input r, Request.decode input = .ok r →
        r.Readable ∧ ∃ b, r.encode = .ok b ∧ Request.decode b = .ok r := by
  refine ⟨fun r h => ⟨_, Request.encode_of_readable h, Request.read_fields h⟩,
    fun r h => ⟨_, Response.encode_of_readable h, Response.read_fields h⟩, fun input r h => ?_⟩
  obtain ⟨⟨_, rest⟩, hr, rfl⟩ := map_eq_ok.1 h
  have readable := Request.readable_of_read hr
  exact ⟨readable, _, Request.encode_of_readable readable,
    map_eq_ok.2 ⟨_, Request.read_fields readable, rfl⟩⟩

/-- A key that is to be confirmed at each use for an hour, with strings of one byte. -/
def shortAddition : ConstrainedAddition where
  addition :=
    { privateKey := { type := .ed25519, preamble := [], parts := [[1], [2]] }, comment := "é" }
  constraints := [.lifetime 3600, .confirm]

def shortIdentity : Identity :=
  { publicKey := { type := .ed25519, parts := [[1]] }, comment := "é" }

/-- A request to remove that identity, with a byte in the string of its key that is not read. -/
def longRemoval : Bytes := 18 :: stringBytes (shortIdentity.publicKey.wire ++ [0])

theorem read_short_messages :
    (∃ b, (Request.addConstrained shortAddition).encode = .ok b ∧
      Request.read b = .ok (.addConstrained shortAddition, [])) ∧
    (∃ b, (Response.identities [shortIdentity]).encode = .ok b ∧
      Response.read b = .ok (.identities [shortIdentity], [])) ∧
    Request.decode longRemoval = .ok (.removeIdentity shortIdentity.publicKey) ∧
    ∃ b, (Request.removeIdentity shortIdentity.publicKey).encode = .ok b ∧
      Request.decode b = .ok (.removeIdentity shortIdentity.publicKey) := by
  have removal : Request.decode longRemoval = .ok (.removeIdentity shortIdentity.publicKey) := by
    decide +kernel
  refine ⟨read_messages.1 _ ⟨⟨⟨rfl, rfl⟩, by decide⟩, by decide⟩,
    read_messages.2.1 _ ⟨?_, by decide⟩, removal, (read_messages.2.2 _ _ removal).2⟩
  intro i hi
  obtain rfl := List.mem_singleton.1 hi
  exact ⟨⟨rfl, by decide⟩, by decide⟩

/-! ### One spelling of a request -/

namespace Request

/-- The string of a key to remove counts just the bytes of that key. -/
def CountsKey (input : Bytes) (r : Request) : Prop :=
  ∀ k, r = .removeIdentity k → ∃ left, count (input.drop 1) = .ok (k.wire.length, left)

/-- The fields are as they are written just when a key to remove is counted right. -/
theorem fields_append_iff {left rest : Bytes} {r : Request} (h : r.FieldsRead left rest) :
    left = r.fields ++ rest ↔ CountsKey (r.number :: left) r := by
  cases r with
  | requestIdentities => exact iff_of_true h (by rintro _ ⟨⟩)
  | addIdentity a => exact iff_of_true h (by rintro _ ⟨⟩)
  | removeIdentity k =>
    obtain ⟨n, hl, hn, rfl⟩ := h
    have counted := count_exact.read hn (k.wire ++ rest)
    constructor
    · intro e
      rintro _ ⟨⟩
      refine ⟨k.wire ++ rest, ?_⟩
      rw [fields, stringBytes, List.append_assoc] at e
      rw [List.drop_succ_cons, List.drop_zero, e]
      exact count_exact.read (Nat.le_trans hl hn) _
    · intro hk
      obtain ⟨_, again⟩ := hk k rfl
      rw [List.drop_succ_cons, List.drop_zero, counted] at again
      cases again
      rw [fields, stringBytes, List.append_assoc]
  | removeAllIdentities => exact iff_of_true h (by rintro _ ⟨⟩)
  | addConstrained a =>
    obtain ⟨rfl, rfl⟩ := h
    exact iff_of_true (List.append_nil _).symm (by rintro _ ⟨⟩)

theorem encode_append_iff {input rest : Bytes} {r : Request} (h : read input = .ok (r, rest)) :
    (∃ front, r.encode = .ok front ∧ input = front ++ rest) ↔ CountsKey input r := by
  obtain ⟨readable, left, rfl, hleft⟩ := read_eq_ok_iff.1 h
  rw [← fields_append_iff hleft, encode_of_readable readable]
  simp

/-- A request was read off the bytes that are written of it if and only if a key that it is to remove
is counted right; and from all inputs where that is so it is read off the same bytes. -/
theorem one_spelling {input rest : Bytes} {r : Request} (h : read input = .ok (r, rest)) :
    ((∃ front, r.encode = .ok front ∧ input = front ++ rest) ↔ CountsKey input r) ∧
      (CountsKey input r → ∀ other left, read other = .ok (r, left) → CountsKey other r →
        ∃ front, input = front ++ rest ∧ other = front ++ left) := by
  refine ⟨encode_append_iff h, fun hi other left ho hc => ?_⟩
  obtain ⟨front, hfront, rfl⟩ := (encode_append_iff h).2 hi
  obtain ⟨front', hfront', rfl⟩ := (encode_append_iff ho).2 hc
  rw [hfront] at hfront'
  cases hfront'
  exact ⟨front, rfl, rfl⟩

/-- The request that `longRemoval` is read as, with that byte behind the string. -/
def exactRemoval : Bytes := 18 :: (stringBytes shortIdentity.publicKey.wire ++ [0])

theorem exactRemoval_spelling :
    read exactRemoval = .ok (.removeIdentity shortIdentity.publicKey, [0]) ∧
      read (18 :: stringBytes shortIdentity.publicKey.wire) =
        .ok (.removeIdentity shortIdentity.publicKey, []) ∧
      (∃ front, (Request.removeIdentity shortIdentity.publicKey).encode = .ok front ∧
        exactRemoval = front ++ [0]) ∧
      ∃ front, exactRemoval = front ++ [0] ∧
        18 :: stringBytes shortIdentity.publicKey.wire = front ++ [] := by
  have behind : read exactRemoval = .ok (.removeIdentity shortIdentity.publicKey, [0]) := by
    decide +kernel
  have alone : read (18 :: stringBytes shortIdentity.publicKey.wire) =
      .ok (.removeIdentity shortIdentity.publicKey, []) := by decide +kernel
  have counts : CountsKey exactRemoval (.removeIdentity shortIdentity.publicKey) := by
    rintro _ ⟨⟩
    exact ⟨shortIdentity.publicKey.wire ++ [0], by decide +kernel⟩
  have countsAlone : CountsKey (18 :: stringBytes shortIdentity.publicKey.wire)
      (.removeIdentity shortIdentity.publicKey) := by
    rintro _ ⟨⟩
    exact ⟨shortIdentity.publicKey.wire, by decide +kernel⟩
  obtain ⟨written, unique⟩ := one_spelling behind
  exact ⟨behind, alone, written.2 counts, unique counts _ _ alone countsAlone⟩

/-- Two byte strings that differ in the count of the key's string are read as the same request,
with the same byte left. -/
theorem removal_spelled_twice :
    read longRemoval = .ok (.removeIdentity shortIdentity.publicKey, [0]) ∧
      read exactRemoval = .ok (.removeIdentity shortIdentity.publicKey, [0]) ∧
      longRemoval ≠ exactRemoval ∧
      ¬ ∃ front, (Request.removeIdentity shortIdentity.publicKey).encode = .ok front ∧
        longRemoval = front ++ [0] := by
  have written : (Request.removeIdentity shortIdentity.publicKey).encode =
      .ok (18 :: stringBytes shortIdentity.publicKey.wire) := by decide +kernel
  have apart : longRemoval ≠ exactRemoval := by decide +kernel
  refine ⟨by decide +kernel, by decide +kernel, apart, ?_⟩
  rintro ⟨front, hfront, h⟩
  rw [written] at hfront
  cases hfront
  exact apart h

end Request

end SshKeyring
