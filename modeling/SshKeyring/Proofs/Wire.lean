import SshKeyring.Bytes.Value
import SshKeyring.Proofs.Text.Utf8
import SshKeyring.Wire

/-! Readers and writers of the wire agree. A reader is exact for a way to write values down if it
accepts just what is written and leaves what follows it; words, strings of a length that readers
take and lists of them are read exactly. Where they are not, the input ends too early or counts too
much. Strings of any length that can be written are told apart by what is written of them, also when
others follow. -/

namespace SshKeyring

namespace Reader

variable {ε ε' α β : Type}

/-- What has to go well for a reader behind a check. -/
theorem failIf_eq_ok_iff (p : Prop) [Decidable p] (e : ε) (r : Reader ε α) (input : Bytes)
    (out : α × Bytes) : (if p then fail e else r) input = .ok out ↔ ¬ p ∧ r input = .ok out := by
  by_cases h : p
  · simp [h]
  · simp [h]

/-- A reader that accepts exactly the encodings of the values with a property, whatever follows
them. -/
def Exact (r : Reader ε α) (P : α → Prop) (encode : α → Bytes) : Prop :=
  ∀ input a rest, r input = .ok (a, rest) ↔ P a ∧ input = encode a ++ rest

theorem Exact.read {r : Reader ε α} {P : α → Prop} {encode : α → Bytes} (h : r.Exact P encode)
    {a : α} (ha : P a) (rest : Bytes) : r (encode a ++ rest) = .ok (a, rest) :=
  (h _ _ _).2 ⟨ha, rfl⟩

theorem mapError_eq_ok_iff (f : ε → ε') (r : Reader ε α) (input : Bytes) (out : α × Bytes) :
    r.mapError f input = .ok out ↔ r input = .ok out := by
  exact mapError_eq_ok

theorem Exact.mapError {r : Reader ε α} {P : α → Prop} {encode : α → Bytes} (h : r.Exact P encode)
    (f : ε → ε') : (r.mapError f).Exact P encode := fun input a rest =>
  (mapError_eq_ok_iff f r input (a, rest)).trans (h input a rest)

theorem Exact.congr {r : Reader ε α} {P Q : α → Prop} {encode encode' : α → Bytes}
    (h : r.Exact P encode) (hP : ∀ a, P a ↔ Q a) (he : ∀ a, Q a → encode a = encode' a) :
    r.Exact Q encode' := by
  intro input a rest
  rw [h input a rest, hP]
  refine and_congr_right fun ha => ?_
  rw [he a ha]

theorem pure_exact (a : α) : (pure a : Reader ε α).Exact (· = a) fun _ => [] := by
  intro input b rest
  rw [pure_apply, Except.ok.injEq, Prod.mk.injEq, eq_comm (a := a)]
  rfl

/-- Reading one value and then another, from which the first can be told. -/
theorem Exact.bind {r : Reader ε α} {f : α → Reader ε β} {P : α → Prop} {encode : α → Bytes}
    {Q : α → β → Prop} {encode' : α → β → Bytes} (hr : r.Exact P encode)
    (hf : ∀ a, P a → (f a).Exact (Q a) (encode' a)) (first : β → α)
    (hfirst : ∀ a b, Q a b → first b = a) :
    (r >>= f).Exact (fun b => P (first b) ∧ Q (first b) b)
      fun b => encode (first b) ++ encode' (first b) b := by
  intro input b rest
  rw [bind_eq_ok_iff]
  constructor
  · rintro ⟨a, left, ha, hb⟩
    obtain ⟨hP, rfl⟩ := (hr _ _ _).1 ha
    obtain ⟨hQ, rfl⟩ := (hf a hP _ _ _).1 hb
    obtain rfl := hfirst a b hQ
    exact ⟨⟨hP, hQ⟩, (List.append_assoc ..).symm⟩
  · rintro ⟨⟨hP, hQ⟩, rfl⟩
    rw [List.append_assoc]
    exact ⟨_, _, hr.read hP _, (hf _ hP).read hQ rest⟩

/-- A reader that is exact for what a writer writes. -/
theorem Exact.eq_ok_iff_of_write {r : Reader ε α} {P : α → Prop} {encode : α → Bytes}
    (h : r.Exact P encode) {write : α → Except ε' Bytes} (hw : ∀ a, P a → write a = .ok (encode a))
    (input : Bytes) (a : α) (rest : Bytes) :
    r input = .ok (a, rest) ↔ P a ∧ ∃ front, write a = .ok front ∧ input = front ++ rest := by
  rw [h]
  refine and_congr_right fun ha => ?_
  simp [hw a ha]

/-- A reader that has to use every byte accepts the encodings and nothing else. -/
theorem Exact.whole_eq_ok_iff {r : Reader ε α} {P : α → Prop} {encode : α → Bytes}
    (h : r.Exact P encode) (trailing : Nat → ε) (input : Bytes) (a : α) :
    r.whole trailing input = .ok a ↔ P a ∧ input = encode a := by
  rw [Reader.whole_eq_ok_iff, h, List.append_nil]

theorem Exact.whole_eq_ok_iff_of_write {r : Reader ε α} {P : α → Prop} {encode : α → Bytes}
    (h : r.Exact P encode) {write : α → Except ε' Bytes} (hw : ∀ a, P a → write a = .ok (encode a))
    (trailing : Nat → ε) (input : Bytes) (a : α) :
    r.whole trailing input = .ok a ↔ P a ∧ write a = .ok input := by
  rw [h.whole_eq_ok_iff]
  refine and_congr_right fun ha => ?_
  rw [hw a ha, Except.ok.injEq, eq_comm]

/-- A reader that reads some values, whatever follows each, reads a list of them. -/
theorem timesOnto_flatMap {r : Reader ε β} {encode : α → Bytes} (value : α → β) {items : List α}
    (h : ∀ a ∈ items, ∀ rest, r (encode a ++ rest) = .ok (value a, rest)) (done : List β)
    (rest : Bytes) : timesOnto r items.length done (items.flatMap encode ++ rest) =
      .ok (done.reverse ++ items.map value, rest) := by
  induction items generalizing done with
  | nil => simp [timesOnto]
  | cons a items ih =>
    rw [List.flatMap_cons, List.append_assoc, List.length_cons, timesOnto, h a (by simp)]
    simpa using ih (fun b hb => h b (by simp [hb])) (value a :: done)

/-- A reader that takes exactly the spellings with a property, whatever follows them, and gives what
each of them stands for. -/
def Takes (r : Reader ε β) (P : α → Prop) (encode : α → Bytes) (value : α → β) : Prop :=
  ∀ input b rest, r input = .ok (b, rest) ↔ ∃ a, P a ∧ value a = b ∧ input = encode a ++ rest

theorem Takes.read {r : Reader ε β} {P : α → Prop} {encode : α → Bytes} {value : α → β}
    (h : r.Takes P encode value) {a : α} (ha : P a) (rest : Bytes) :
    r (encode a ++ rest) = .ok (value a, rest) :=
  (h _ _ _).2 ⟨a, ha, rfl, rfl⟩

theorem Exact.takes {r : Reader ε α} {P : α → Prop} {encode : α → Bytes} (h : r.Exact P encode) :
    r.Takes P encode id := by
  intro input a rest
  rw [h]
  constructor
  · rintro ⟨ha, rfl⟩
    exact ⟨a, ha, rfl, rfl⟩
  · rintro ⟨_, ha, rfl, rfl⟩
    exact ⟨ha, rfl⟩

theorem Takes.timesOnto_eq_ok_iff {r : Reader ε β} {P : α → Prop} {encode : α → Bytes}
    {value : α → β} (h : r.Takes P encode value) (n : Nat) (done : List β) (input : Bytes)
    (out : List β) (rest : Bytes) :
    timesOnto r n done input = .ok (out, rest) ↔
      ∃ items : List α, out = done.reverse ++ items.map value ∧ items.length = n ∧
        (∀ a ∈ items, P a) ∧ input = items.flatMap encode ++ rest := by
  constructor
  · intro hr
    induction n generalizing done input with
    | zero =>
      simp only [timesOnto, Except.ok.injEq, Prod.mk.injEq] at hr
      obtain ⟨rfl, rfl⟩ := hr
      exact ⟨[], by simp⟩
    | succ n ih =>
      rw [timesOnto] at hr
      split at hr
      · next b left hb =>
        obtain ⟨a, ha, rfl, rfl⟩ := (h _ _ _).1 hb
        obtain ⟨items, rfl, rfl, hitems, rfl⟩ := ih _ _ hr
        exact ⟨a :: items, by simp, rfl, by simpa using ⟨ha, hitems⟩, by simp⟩
      · cases hr
  · rintro ⟨items, rfl, rfl, hitems, rfl⟩
    exact timesOnto_flatMap value (fun a ha rest => h.read (hitems a ha) rest) done rest

theorem Takes.times {r : Reader ε β} {P : α → Prop} {encode : α → Bytes} {value : α → β}
    (h : r.Takes P encode value) (n : Nat) :
    (r.times n).Takes (fun items : List α => items.length = n ∧ ∀ a ∈ items, P a)
      (List.flatMap encode) (List.map value) := by
  intro input out rest
  rw [Reader.times, h.timesOnto_eq_ok_iff]
  constructor
  · rintro ⟨items, rfl, hn, hitems, rfl⟩
    exact ⟨items, ⟨hn, hitems⟩, rfl, rfl⟩
  · rintro ⟨items, ⟨hn, hitems⟩, rfl, rfl⟩
    exact ⟨items, rfl, hn, hitems, rfl⟩

theorem Exact.times {r : Reader ε α} {P : α → Prop} {encode : α → Bytes} (h : r.Exact P encode)
    (n : Nat) :
    (r.times n).Exact (fun items => items.length = n ∧ ∀ a ∈ items, P a) (·.flatMap encode) := by
  intro input items rest
  rw [h.takes.times n]
  constructor
  · rintro ⟨items, hitems, rfl, rfl⟩
    rw [List.map_id]
    exact ⟨hitems, rfl⟩
  · rintro ⟨hitems, rfl⟩
    exact ⟨items, hitems, List.map_id items, rfl⟩

end Reader

namespace Wire

/-! ### Reading -/

theorem length_putWord (w : UInt32) : (putWord w).length = 4 := Bytes.length_ofNat 4 _

theorem word_append {b : Bytes} (hb : b.length = 4) (rest : Bytes) :
    word (b ++ rest) = .ok (UInt32.ofNat (Bytes.toNat b), rest) := by
  match b, hb with
  | [_, _, _, _], _ => rfl

theorem word_eq_ok {input rest : Bytes} {w : UInt32} (h : word input = .ok (w, rest)) :
    ∃ b : Bytes, b.length = 4 ∧ input = b ++ rest ∧ w = UInt32.ofNat (Bytes.toNat b) := by
  match input, h with
  | a :: b :: c :: d :: left, h =>
    simp only [word, Except.ok.injEq, Prod.mk.injEq] at h
    exact ⟨[a, b, c, d], rfl, by rw [← h.2]; rfl, h.1.symm⟩

theorem toNat_ofNat_word {b : Bytes} (hb : b.length = 4) :
    (UInt32.ofNat (Bytes.toNat b)).toNat = Bytes.toNat b := by
  have hlt := Bytes.toNat_lt b
  rw [hb] at hlt
  rw [UInt32.toNat_ofNat']
  exact Nat.mod_eq_of_lt (by omega)

theorem putWord_toNat {b : Bytes} (hb : b.length = 4) :
    putWord (UInt32.ofNat (Bytes.toNat b)) = b := by
  rw [putWord, toNat_ofNat_word hb, ← hb, Bytes.ofNat_toNat]

theorem toNat_putWord (w : UInt32) : Bytes.toNat (putWord w) = w.toNat := by
  have hw := w.toNat_lt
  rw [putWord, Bytes.toNat_ofNat]
  omega

/-- A length that readers take is one that writers take. -/
theorem lt_countLimit {n : Nat} (h : n ≤ maxLength) : n < countLimit :=
  Nat.lt_of_le_of_lt h (by decide)

theorem toNat_ofNat_count {n : Nat} (h : n < countLimit) : (UInt32.ofNat n).toNat = n := by
  rw [UInt32.toNat_ofNat']
  exact Nat.mod_eq_of_lt h

theorem word_exact : word.Exact (fun _ => True) putWord := by
  intro input w rest
  constructor
  · intro h
    obtain ⟨b, hb, rfl, rfl⟩ := word_eq_ok h
    rw [putWord_toNat hb]
    exact ⟨trivial, rfl⟩
  · rintro ⟨-, rfl⟩
    rw [word_append (length_putWord w), toNat_putWord, UInt32.ofNat_toNat]

theorem take_exact (n : Nat) : (take n).Exact (fun b => b.length = n) id := by
  intro input b rest
  constructor
  · intro h
    by_cases hn : (input.take n).length = n
    · simp only [take, if_pos hn, Except.ok.injEq, Prod.mk.injEq] at h
      obtain ⟨rfl, rfl⟩ := h
      exact ⟨hn, (List.take_append_drop n input).symm⟩
    · simp only [take, if_neg hn] at h
      cases h
  · rintro ⟨rfl, rfl⟩
    simp [take]

theorem byte_exact : byte.Exact (fun _ => True) ([·]) := by
  intro input b rest
  cases input with
  | nil => simp [byte]
  | cons c input => simp [byte]

theorem count_exact : count.Exact (· ≤ maxLength) (fun n => putWord (UInt32.ofNat n)) := by
  intro input n rest
  rw [count, Reader.bind_eq_ok_iff]
  constructor
  · rintro ⟨w, left, hw, h⟩
    obtain ⟨-, rfl⟩ := (word_exact _ _ _).1 hw
    split at h
    · next hle =>
      cases h
      refine ⟨hle, ?_⟩
      change _ = putWord (UInt32.ofNat w.toNat) ++ _
      rw [UInt32.ofNat_toNat]
    · cases h
  · rintro ⟨hn, rfl⟩
    refine ⟨_, rest, word_exact.read trivial rest, ?_⟩
    rw [toNat_ofNat_count (lt_countLimit hn), if_pos hn]
    rfl

/-- A string on the wire, behind the count of its bytes. -/
def stringBytes (b : Bytes) : Bytes := putWord (UInt32.ofNat b.length) ++ b

theorem length_stringBytes (b : Bytes) : (stringBytes b).length = stringSize b := by
  rw [stringBytes, List.length_append, length_putWord, stringSize]

theorem stringBytes_ne_nil (b : Bytes) : stringBytes b ≠ [] := by
  apply List.ne_nil_of_length_pos
  rw [length_stringBytes, stringSize]
  omega

theorem string_exact : string.Exact (·.length ≤ maxLength) stringBytes := by
  intro input b rest
  rw [string, Reader.bind_eq_ok_iff]
  constructor
  · rintro ⟨n, left, hn, h⟩
    obtain ⟨hle, rfl⟩ := (count_exact _ _ _).1 hn
    obtain ⟨rfl, rfl⟩ := (take_exact n _ _ _).1 h
    exact ⟨hle, by rw [stringBytes, List.append_assoc]; rfl⟩
  · rintro ⟨hb, rfl⟩
    rw [stringBytes, List.append_assoc]
    exact ⟨b.length, _, count_exact.read hb _, (take_exact _).read rfl rest⟩

/-- Inside the next string a value is read whose encoding is no longer than the count of that
string says; the string itself may be shorter. -/
theorem within_eq_ok_iff {ε α : Type} {inner : Reader ε α} {P : α → Prop} {encode : α → Bytes}
    (h : inner.Exact P encode) (fault : WireError → ε) {input rest : Bytes} {a : α} :
    within fault inner input = .ok (a, rest) ↔ P a ∧ ∃ n, (encode a).length ≤ n ∧ n ≤ maxLength ∧
      input = putWord (UInt32.ofNat n) ++ (encode a ++ rest) := by
  refine (Reader.bind_eq_ok_iff _ _ _ _).trans ⟨?_, ?_⟩
  · rintro ⟨n, left, hn, hr⟩
    obtain ⟨hle, rfl⟩ := (count_exact.mapError fault _ _ _).1 hn
    cases hi : inner (left.take n) with
    | error e => simp [hi] at hr
    | ok out =>
      simp only [hi, Except.ok.injEq, Prod.mk.injEq] at hr
      obtain ⟨rfl, rfl⟩ := hr
      obtain ⟨ha, front⟩ := (h _ _ _).1 hi
      have sub := congrArg List.length front
      rw [List.length_append, List.length_take] at sub
      refine ⟨ha, n, by omega, hle, ?_⟩
      rw [← List.append_assoc (encode _), ← front, List.take_append_drop]
  · rintro ⟨ha, n, hl, hle, rfl⟩
    refine ⟨n, _, (count_exact.mapError fault).read hle _, ?_⟩
    rw [List.take_append, List.take_of_length_le hl, List.drop_append, List.drop_of_length_le hl]
    simp [h.read ha]

/-! ### Writing -/

theorem putString_eq_ok_iff {b out : Bytes} :
    putString b = .ok out ↔ b.length < countLimit ∧ out = stringBytes b := by
  unfold putString putCount
  by_cases h : b.length < countLimit
  · simp [h, stringBytes, bind, Except.bind, pure, Except.pure, eq_comm]
  · simp [h, bind, Except.bind]

theorem putString_of_long {b : Bytes} (h : ¬ b.length < countLimit) :
    putString b = .error .overflow := by
  rw [putString, putCount, if_neg h]
  rfl

theorem mapM_putString_eq_ok_iff {parts outs : List Bytes} : parts.mapM putString = .ok outs ↔
    (∀ b ∈ parts, b.length < countLimit) ∧ outs = parts.map stringBytes := by
  induction parts generalizing outs with
  | nil =>
    rw [List.mapM_nil, pure_eq_ok]
    simp [eq_comm]
  | cons b parts ih =>
    simp only [List.mapM_cons, bind_eq_ok, putString_eq_ok_iff, ih, pure_eq_ok, List.forall_mem_cons,
      List.map_cons]
    constructor
    · rintro ⟨_, ⟨hb, rfl⟩, _, ⟨hparts, rfl⟩, rfl⟩
      exact ⟨⟨hb, hparts⟩, rfl⟩
    · rintro ⟨⟨hb, hparts⟩, rfl⟩
      exact ⟨_, ⟨hb, rfl⟩, _, ⟨hparts, rfl⟩, rfl⟩

theorem putStrings_eq_ok_iff {parts : List Bytes} {out : Bytes} :
    putStrings parts = .ok out ↔
      (∀ b ∈ parts, b.length < countLimit) ∧ out = parts.flatMap stringBytes := by
  simp only [putStrings, bind_eq_ok, mapM_putString_eq_ok_iff, pure_eq_ok, List.flatMap_def]
  constructor
  · rintro ⟨_, ⟨hparts, rfl⟩, rfl⟩
    exact ⟨hparts, rfl⟩
  · rintro ⟨hparts, rfl⟩
    exact ⟨_, ⟨hparts, rfl⟩, rfl⟩

theorem putText_eq_ok_iff {s : String} {out : Bytes} :
    putText s = .ok out ↔
      (Utf8.encode s).length < countLimit ∧ out = stringBytes (Utf8.encode s) :=
  putString_eq_ok_iff

theorem length_flatMap_stringBytes (parts : List Bytes) :
    (parts.flatMap stringBytes).length = stringsSize parts := by
  induction parts with
  | nil => rfl
  | cons b parts ih =>
    rw [List.flatMap_cons, List.length_append, length_stringBytes, ih]
    rfl

/-- Each string is shorter than the strings together. -/
theorem length_le_of_mem {parts : List Bytes} {b : Bytes} (h : b ∈ parts) :
    b.length ≤ (parts.flatMap stringBytes).length := by
  have sub : (stringBytes b).length ≤ (parts.flatMap stringBytes).length :=
    (List.sublist_flatten_of_mem (List.mem_map_of_mem h)).length_le
  rw [length_stringBytes, stringSize] at sub
  omega

theorem text_exact : text.Exact (fun s => (Utf8.encode s).length ≤ maxLength)
    fun s => stringBytes (Utf8.encode s) := by
  intro input s rest
  rw [text, Reader.bind_eq_ok_iff]
  constructor
  · rintro ⟨b, left, hb, h⟩
    obtain ⟨hle, rfl⟩ := (string_exact _ _ _).1 hb
    cases ht : Utf8.decode? b with
    | none =>
      rw [ht] at h
      cases h
    | some t =>
      rw [ht] at h
      cases h
      obtain rfl := Utf8.encode_of_decode? ht
      exact ⟨hle, rfl⟩
  · rintro ⟨hs, rfl⟩
    refine ⟨_, rest, string_exact.read hs rest, ?_⟩
    rw [Utf8.decode?_encode]
    rfl

/-! ### Boundaries -/

variable {a b r s : Bytes} {parts parts' : List Bytes}

/-- The count of a string tells where it ends. -/
theorem stringBytes_append_inj (ha : a.length < countLimit) (hb : b.length < countLimit) :
    stringBytes a ++ r = stringBytes b ++ s ↔ a = b ∧ r = s := by
  constructor
  · intro h
    rw [stringBytes, stringBytes, List.append_assoc, List.append_assoc] at h
    obtain ⟨count, rest⟩ := List.append_inj h (by rw [length_putWord, length_putWord])
    have length : a.length = b.length := by
      rw [← toNat_ofNat_count ha, ← toNat_putWord, count, toNat_putWord, toNat_ofNat_count hb]
    exact List.append_inj rest length
  · rintro ⟨rfl, rfl⟩
    rfl

/-- As many strings in a row can be told apart, whatever follows them. -/
theorem flatMap_stringBytes_append_inj (h : ∀ p ∈ parts, p.length < countLimit)
    (h' : ∀ p ∈ parts', p.length < countLimit) (hn : parts.length = parts'.length) :
    parts.flatMap stringBytes ++ r = parts'.flatMap stringBytes ++ s ↔ parts = parts' ∧ r = s := by
  induction parts generalizing parts' with
  | nil =>
    rw [List.length_eq_zero_iff.1 hn.symm]
    simp
  | cons p parts ih =>
    obtain ⟨q, parts', rfl⟩ := List.exists_cons_of_length_eq_add_one hn.symm
    obtain ⟨hp, hparts⟩ := List.forall_mem_cons.1 h
    obtain ⟨hq, hparts'⟩ := List.forall_mem_cons.1 h'
    have rest := ih hparts hparts' (Nat.succ.inj hn)
    rw [List.flatMap_cons, List.flatMap_cons, List.append_assoc, List.append_assoc,
      stringBytes_append_inj hp hq, rest, List.cons.injEq, and_assoc]

/-- Strings in a row up to the end can be told apart, however many there are. -/
theorem flatMap_stringBytes_inj (h : ∀ p ∈ parts, p.length < countLimit)
    (h' : ∀ p ∈ parts', p.length < countLimit) :
    parts.flatMap stringBytes = parts'.flatMap stringBytes ↔ parts = parts' := by
  induction parts generalizing parts' with
  | nil =>
    cases parts' with
    | nil => simp
    | cons q parts' => simp [stringBytes_ne_nil]
  | cons p parts ih =>
    cases parts' with
    | nil => simp [stringBytes_ne_nil]
    | cons q parts' =>
      obtain ⟨hp, hparts⟩ := List.forall_mem_cons.1 h
      obtain ⟨hq, hparts'⟩ := List.forall_mem_cons.1 h'
      rw [List.flatMap_cons, List.flatMap_cons, stringBytes_append_inj hp hq, ih hparts hparts',
        List.cons.injEq]

end Wire

/-! ### Faults -/

namespace Reader

variable {ε ε' α β : Type} {P : ε → Prop}

/-- The reader has no faults but these. -/
def FailsWith (r : Reader ε α) (P : ε → Prop) : Prop := ∀ input e, r input = .error e → P e

theorem pure_failsWith (a : α) : (pure a : Reader ε α).FailsWith P := by
  rintro input e ⟨⟩

theorem fail_failsWith {e : ε} (h : P e) : (fail e : Reader ε α).FailsWith P := by
  rintro input _ ⟨⟩
  exact h

/-- What comes second only has to do with what the first has read. -/
theorem FailsWith.bind {r : Reader ε α} {f : α → Reader ε β} (hr : r.FailsWith P)
    (hf : ∀ input a rest, r input = .ok (a, rest) → (f a).FailsWith P) :
    (r >>= f).FailsWith P := by
  intro input e h
  rw [bind_apply] at h
  split at h
  · next ha => exact hf _ _ _ ha _ _ h
  · next he =>
    cases h
    exact hr _ _ he

theorem FailsWith.mapError {r : Reader ε α} (h : r.FailsWith P) {f : ε → ε'} {Q : ε' → Prop}
    (hf : ∀ e, P e → Q (f e)) : (r.mapError f).FailsWith Q := by
  intro input e he
  change (r input).mapError f = .error e at he
  cases hr : r input with
  | ok out =>
    rw [hr] at he
    cases he
  | error e =>
    rw [hr] at he
    cases he
    exact hf e (h input e hr)

theorem FailsWith.timesOnto {r : Reader ε α} (h : r.FailsWith P) {n : Nat} {done : List α}
    {input : Bytes} {e : ε} (he : timesOnto r n done input = .error e) : P e := by
  induction n generalizing done input with
  | zero => cases he
  | succ n ih =>
    rw [Reader.timesOnto] at he
    split at he
    · exact ih he
    · next hr =>
      cases he
      exact h _ _ hr

theorem FailsWith.times {r : Reader ε α} (h : r.FailsWith P) (n : Nat) :
    (r.times n).FailsWith P := fun _ _ he => h.timesOnto he

end Reader

/-- The input ends too early, or a count in it is too large. -/
def WireError.Illegible (e : WireError) : Prop := e = .length ∨ e = .overflow

namespace Wire

theorem byte_failsWith : byte.FailsWith WireError.Illegible := by
  intro input e h
  unfold byte at h
  split at h
  · cases h
  · cases h
    exact .inl rfl

theorem word_failsWith : word.FailsWith WireError.Illegible := by
  intro input e h
  unfold word at h
  split at h
  · cases h
  · cases h
    exact .inl rfl

theorem take_failsWith (n : Nat) : (take n).FailsWith WireError.Illegible := by
  intro input e h
  unfold take at h
  dsimp only at h
  split at h
  · cases h
  · cases h
    exact .inl rfl

theorem count_failsWith : count.FailsWith WireError.Illegible := by
  refine word_failsWith.bind fun _ n _ _ => ?_
  split
  · exact Reader.pure_failsWith _
  · exact Reader.fail_failsWith (.inr rfl)

theorem string_failsWith : string.FailsWith WireError.Illegible :=
  count_failsWith.bind fun _ n _ _ => take_failsWith n

end Wire

end SshKeyring
