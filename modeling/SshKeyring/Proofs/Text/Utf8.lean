import SshKeyring.Text.Utf8

/-! What UTF-8 decoding makes of encoded text. The bytes of a character take the decoder from its
start to its start again and leave that character, so whole texts come back as they were, with
replacement characters or without. Text of ASCII characters has one byte for each of them, and only
such text has no other bytes. Nothing else decodes: bytes of which no piece is broken are the
encoding of what they decode to. Of bytes that are no text the characters shown within ASCII are
still just their bytes of ASCII, since a character outside has none. -/

namespace SshKeyring.Utf8

/-- The bytes of characters in a row. -/
def ofChars (text : List Char) : Bytes := text.flatMap String.utf8EncodeChar

theorem encode_eq_ofChars (s : String) : encode s = ofChars s.toList := rfl

theorem ofChars_cons (c : Char) (text : List Char) :
    ofChars (c :: text) = String.utf8EncodeChar c ++ ofChars text := List.flatMap_cons

theorem ofChars_append (s t : List Char) : ofChars (s ++ t) = ofChars s ++ ofChars t :=
  List.flatMap_append

private theorem toNat_ofNat_of_lt {n : Nat} (h : n < 256) : (UInt8.ofNat n).toNat = n := by
  rw [UInt8.toNat_ofNat']
  omega

/-! ### ASCII -/

theorem utf8EncodeChar_of_ascii {c : Char} (h : c.toNat < 0x80) :
    String.utf8EncodeChar c = [UInt8.ofNat c.toNat] := by
  unfold String.utf8EncodeChar
  exact if_pos (Nat.le_of_lt_succ h)

theorem ofChars_of_ascii {text : List Char} (h : ∀ c ∈ text, c.toNat < 0x80) :
    ofChars text = text.map fun c => UInt8.ofNat c.toNat := by
  induction text with
  | nil => rfl
  | cons c text ih =>
    rw [ofChars_cons, utf8EncodeChar_of_ascii (h c (by simp)), ih fun d hd => h d (by simp [hd])]
    rfl

theorem toNat_lt_of_utf8EncodeChar {c : Char} (h : ∀ b ∈ String.utf8EncodeChar c, b < 0x80) :
    c.toNat < 0x80 := by
  refine Nat.lt_of_not_le fun hc => ?_
  have large : ¬ c.val.toNat ≤ 0x7F := Nat.not_le.2 hc
  have lead {n : Nat} (low : 0x80 ≤ n) (high : n < 256) : ¬ UInt8.ofNat n < 0x80 := by
    rw [UInt8.lt_iff_toNat_lt, toNat_ofNat_of_lt high]
    exact Nat.not_lt.2 low
  unfold String.utf8EncodeChar at h
  rw [if_neg large] at h
  split at h
  · exact lead (by omega) (by omega) (h _ List.mem_cons_self)
  · split at h
    · exact lead (by omega) (by omega) (h _ List.mem_cons_self)
    · exact lead (by omega) (by omega) (h _ List.mem_cons_self)

/-- A text is ASCII if all of its bytes are. -/
theorem ascii_ofChars_iff {text : List Char} :
    (∀ b ∈ ofChars text, b < 0x80) ↔ ∀ c ∈ text, c.toNat < 0x80 := by
  constructor
  · intro h c hc
    exact toNat_lt_of_utf8EncodeChar fun b hb => h b (List.mem_flatMap.2 ⟨c, hc, hb⟩)
  · intro h b hb
    rw [ofChars_of_ascii h] at hb
    obtain ⟨c, hc, rfl⟩ := List.mem_map.1 hb
    have hlt := h c hc
    rw [UInt8.lt_iff_toNat_lt, toNat_ofNat_of_lt (by omega)]
    exact hlt

theorem ofUInt8_ofNat_of_ascii {c : Char} (h : c.toNat < 0x80) :
    Char.ofUInt8 (UInt8.ofNat c.toNat) = c := by
  apply Char.ext
  apply UInt32.toNat_inj.1
  show (UInt8.ofNat c.toNat).toUInt32.toNat = c.toNat
  rw [UInt8.toNat_toUInt32, toNat_ofNat_of_lt (by omega)]

/-! ### The first byte of a character -/

theorem lead_one (done : List Piece) {n : Nat} (h : n < 0x80) :
    lead done (UInt8.ofNat n) = (.start, .scalar (Char.ofNat n) :: done) := by
  have e : (UInt8.ofNat n).toNat = n := toNat_ofNat_of_lt (by omega)
  have : UInt8.ofNat n < 0x80 := by rw [UInt8.lt_iff_toNat_lt, e]; exact h
  rw [lead, if_pos this, e]

theorem lead_two (done : List Piece) {n : Nat} (h : 0xC2 ≤ n) (h' : n < 0xE0) :
    lead done (UInt8.ofNat n) = (.inside (n - 0xC0) 0 0x80 0xBF, done) := by
  have e : (UInt8.ofNat n).toNat = n := toNat_ofNat_of_lt (by omega)
  simp only [lead, UInt8.lt_iff_toNat_lt, e, UInt8.reduceToNat]
  rw [if_neg (by omega), if_neg (by omega), if_pos h']

theorem lead_three (done : List Piece) {n : Nat} (h : 0xE0 ≤ n) (h' : n < 0xF0) :
    lead done (UInt8.ofNat n) =
      (.inside (n - 0xE0) 1 (if n = 0xE0 then 0xA0 else 0x80) (if n = 0xED then 0x9F else 0xBF),
        done) := by
  have e : (UInt8.ofNat n).toNat = n := toNat_ofNat_of_lt (by omega)
  simp only [lead, UInt8.lt_iff_toNat_lt, ← UInt8.toNat_inj, e, UInt8.reduceToNat]
  rw [if_neg (by omega), if_neg (by omega), if_neg (by omega), if_pos h']

theorem lead_four (done : List Piece) {n : Nat} (h : 0xF0 ≤ n) (h' : n < 0xF5) :
    lead done (UInt8.ofNat n) =
      (.inside (n - 0xF0) 2 (if n = 0xF0 then 0x90 else 0x80) (if n = 0xF4 then 0x8F else 0xBF),
        done) := by
  have e : (UInt8.ofNat n).toNat = n := toNat_ofNat_of_lt (by omega)
  simp only [lead, UInt8.lt_iff_toNat_lt, ← UInt8.toNat_inj, e, UInt8.reduceToNat]
  rw [if_neg (by omega), if_neg (by omega), if_neg (by omega), if_neg (by omega), if_pos h']

/-! ### Bytes after the first -/

theorem step_inside (done : List Piece) (value more : Nat) {low high : UInt8} {n : Nat} (h : n < 64)
    (hl : low.toNat ≤ n + 0x80) (hh : n + 0x80 ≤ high.toNat) :
    step (.inside value (more + 1) low high, done) (UInt8.ofNat (n + 0x80)) =
      (.inside (64 * value + n) more 0x80 0xBF, done) := by
  have e : (UInt8.ofNat (n + 0x80)).toNat = n + 0x80 := toNat_ofNat_of_lt (by omega)
  have hin : low ≤ UInt8.ofNat (n + 0x80) ∧ UInt8.ofNat (n + 0x80) ≤ high := by
    rw [UInt8.le_iff_toNat_le, UInt8.le_iff_toNat_le, e]
    exact ⟨hl, hh⟩
  have low : (n + 0x80) % 64 = n := by omega
  simp only [step, if_pos hin, e, low]

theorem step_last (done : List Piece) (value : Nat) {low high : UInt8} {n : Nat} (h : n < 64)
    (hl : low.toNat ≤ n + 0x80) (hh : n + 0x80 ≤ high.toNat) :
    step (.inside value 0 low high, done) (UInt8.ofNat (n + 0x80)) =
      (.start, .scalar (Char.ofNat (64 * value + n)) :: done) := by
  have e : (UInt8.ofNat (n + 0x80)).toNat = n + 0x80 := toNat_ofNat_of_lt (by omega)
  have hin : low ≤ UInt8.ofNat (n + 0x80) ∧ UInt8.ofNat (n + 0x80) ≤ high := by
    rw [UInt8.le_iff_toNat_le, UInt8.le_iff_toNat_le, e]
    exact ⟨hl, hh⟩
  have low : (n + 0x80) % 64 = n := by omega
  simp only [step, if_pos hin, e, low]

/-- The bytes of one character take the decoder from the start back to the start. -/
theorem foldl_step_utf8EncodeChar (c : Char) (done : List Piece) :
    (String.utf8EncodeChar c).foldl step (.start, done) = (.start, .scalar c :: done) := by
  have hv : c.toNat < 0xD800 ∨ 0xDFFF < c.toNat ∧ c.toNat < 0x110000 := c.valid
  have hc : Char.ofNat c.toNat = c := Char.ofNat_toNat c
  unfold String.utf8EncodeChar
  rw [show c.val.toNat = c.toNat from rfl]
  generalize c.toNat = v at hv hc
  by_cases h1 : v ≤ 0x7F
  · rw [if_pos h1]
    simp only [List.foldl_cons, List.foldl_nil, step]
    rw [lead_one done (by omega), hc]
  by_cases h2 : v ≤ 0x7FF
  · have value : 64 * (v / 64 % 32 + 0xC0 - 0xC0) + v % 64 = v := by omega
    rw [if_neg h1, if_pos h2]
    simp only [List.foldl_cons, List.foldl_nil]
    rw [step, lead_two done (by omega) (by omega),
      step_last done _ (by omega) (by simp) (by simp; omega), value, hc]
  by_cases h3 : v ≤ 0xFFFF
  · have value : 64 * (64 * (v / 4096 % 16 + 0xE0 - 0xE0) + v / 64 % 64) + v % 64 = v := by omega
    have low : (if v / 4096 % 16 + 0xE0 = 0xE0 then (0xA0 : UInt8) else 0x80).toNat ≤
        v / 64 % 64 + 0x80 := by
      split
      · simp only [UInt8.reduceToNat]
        omega
      · simp
    have high : v / 64 % 64 + 0x80 ≤
        (if v / 4096 % 16 + 0xE0 = 0xED then (0x9F : UInt8) else 0xBF).toNat := by
      split
      · simp only [UInt8.reduceToNat]
        omega
      · simp only [UInt8.reduceToNat]
        omega
    rw [if_neg h1, if_neg h2, if_pos h3]
    simp only [List.foldl_cons, List.foldl_nil]
    rw [step, lead_three done (by omega) (by omega), step_inside done _ _ (by omega) low high,
      step_last done _ (by omega) (by simp) (by simp; omega), value, hc]
  · have value : 64 * (64 * (64 * (v / 262144 % 8 + 0xF0 - 0xF0) + v / 4096 % 64) + v / 64 % 64) +
        v % 64 = v := by omega
    have low : (if v / 262144 % 8 + 0xF0 = 0xF0 then (0x90 : UInt8) else 0x80).toNat ≤
        v / 4096 % 64 + 0x80 := by
      split
      · simp only [UInt8.reduceToNat]
        omega
      · simp
    have high : v / 4096 % 64 + 0x80 ≤
        (if v / 262144 % 8 + 0xF0 = 0xF4 then (0x8F : UInt8) else 0xBF).toNat := by
      split
      · simp only [UInt8.reduceToNat]
        omega
      · simp only [UInt8.reduceToNat]
        omega
    rw [if_neg h1, if_neg h2, if_neg h3]
    simp only [List.foldl_cons, List.foldl_nil]
    rw [step, lead_four done (by omega) (by omega), step_inside done _ _ (by omega) low high,
      step_inside done _ _ (by omega) (by simp) (by simp; omega),
      step_last done _ (by omega) (by simp) (by simp; omega), value, hc]

theorem foldl_step_ofChars (text : List Char) (done : List Piece) :
    (ofChars text).foldl step (.start, done) = (.start, (text.map .scalar).reverse ++ done) := by
  induction text generalizing done with
  | nil => rfl
  | cons c text ih =>
    rw [ofChars_cons, List.foldl_append, foldl_step_utf8EncodeChar, ih]
    simp

theorem pieces_encode (s : String) : pieces (encode s) = s.toList.map .scalar := by
  rw [pieces, encode_eq_ofChars, foldl_step_ofChars, finish]
  simp

@[simp] theorem decode?_encode (s : String) : decode? (encode s) = some s := by
  have scalars : Piece.scalar? ∘ Piece.scalar = some := rfl
  simp only [decode?, pieces_encode, List.filterMap_map, scalars, List.filterMap_some,
    List.length_map, if_true, String.ofList_toList]

@[simp] theorem decodeLossy_encode (s : String) : decodeLossy (encode s) = s := by
  have shown : Piece.shown ∘ Piece.scalar = id := rfl
  rw [decodeLossy, pieces_encode, List.map_map, shown, List.map_id, String.ofList_toList]

theorem encode_ne_nil {s : String} (h : s ≠ "") : encode s ≠ [] := by
  intro empty
  have decoded := decode?_encode s
  rw [empty] at decoded
  exact h (Option.some.inj decoded).symm

/-- No two texts have the same encoding. -/
theorem ofChars_inj {s t : List Char} : ofChars s = ofChars t ↔ s = t := by
  have read (text : List Char) : decode? (ofChars text) = some (String.ofList text) := by
    rw [← decode?_encode, encode_eq_ofChars, String.toList_ofList]
  constructor
  · intro h
    exact String.ofList_inj.1 (Option.some.inj ((read s).symm.trans (h ▸ read t)))
  · rintro rfl
    rfl

/-! ### What was decoded -/

private theorem val_ofNat {v : Nat} (h : v.isValidChar) : (Char.ofNat v).val.toNat = v := by
  rw [Char.ofNat, dif_pos h]
  rfl

theorem utf8EncodeChar_one {b : UInt8} (h : b.toNat < 0x80) :
    String.utf8EncodeChar (Char.ofNat b.toNat) = [b] := by
  have hv : b.toNat.isValidChar := .inl (by omega)
  unfold String.utf8EncodeChar
  rw [val_ofNat hv, if_pos (by omega), UInt8.ofNat_toNat]

theorem utf8EncodeChar_two {v : Nat} {a b : UInt8} (h : 0x80 ≤ v) (h' : v < 0x800)
    (ha : a.toNat = v / 64 + 0xC0) (hb : b.toNat = v % 64 + 0x80) :
    String.utf8EncodeChar (Char.ofNat v) = [a, b] := by
  have hv : v.isValidChar := .inl (by omega)
  unfold String.utf8EncodeChar
  rw [val_ofNat hv, if_neg (by omega), if_pos (by omega)]
  simp only [List.cons.injEq, and_true, ← UInt8.toNat_inj, UInt8.toNat_ofNat']
  omega

theorem utf8EncodeChar_three {v : Nat} {a b c : UInt8} (hv : v.isValidChar) (h : 0x800 ≤ v)
    (h' : v < 0x10000) (ha : a.toNat = v / 4096 + 0xE0) (hb : b.toNat = v / 64 % 64 + 0x80)
    (hc : c.toNat = v % 64 + 0x80) : String.utf8EncodeChar (Char.ofNat v) = [a, b, c] := by
  unfold String.utf8EncodeChar
  rw [val_ofNat hv, if_neg (by omega), if_neg (by omega), if_pos (by omega)]
  simp only [List.cons.injEq, and_true, ← UInt8.toNat_inj, UInt8.toNat_ofNat']
  omega

theorem utf8EncodeChar_four {v : Nat} {a b c d : UInt8} (h : 0x10000 ≤ v) (h' : v < 0x110000)
    (ha : a.toNat = v / 262144 + 0xF0) (hb : b.toNat = v / 4096 % 64 + 0x80)
    (hc : c.toNat = v / 64 % 64 + 0x80) (hd : d.toNat = v % 64 + 0x80) :
    String.utf8EncodeChar (Char.ofNat v) = [a, b, c, d] := by
  have hv : v.isValidChar := .inr ⟨by omega, h'⟩
  unfold String.utf8EncodeChar
  rw [val_ofNat hv, if_neg (by omega), if_neg (by omega), if_neg (by omega)]
  simp only [List.cons.injEq, and_true, ← UInt8.toNat_inj, UInt8.toNat_ofNat']
  omega

/-- Whether bytes begin a character: with any bytes that the decoder takes after them, they are
the encoding of the value that it then arrives at. -/
def Begins (front : Bytes) (value : Nat) : (more : Nat) → (low high : UInt8) → Prop
  | 0, low, high => ∀ b, low ≤ b → b ≤ high →
    String.utf8EncodeChar (Char.ofNat (64 * value + b.toNat % 64)) = front ++ [b]
  | more + 1, low, high => ∀ b, low ≤ b → b ≤ high →
    Begins (front ++ [b]) (64 * value + b.toNat % 64) more 0x80 0xBF

theorem begins_two {a : UInt8} (h : 0xC2 ≤ a.toNat) (h' : a.toNat < 0xE0) :
    Begins [a] (a.toNat - 0xC0) 0 0x80 0xBF := by
  intro b hl hh
  simp only [UInt8.le_iff_toNat_le, UInt8.reduceToNat] at hl hh
  exact utf8EncodeChar_two (by omega) (by omega) (by omega) (by omega)

/-- A bound that one first byte makes narrower. -/
theorem le_of_ite_le {a b x y z : UInt8} (hzy : z ≤ y) (h : (if a = x then y else z) ≤ b) :
    z.toNat ≤ b.toNat ∧ (a.toNat = x.toNat → y.toNat ≤ b.toNat) := by
  rw [UInt8.toNat_inj, ← UInt8.le_iff_toNat_le, ← UInt8.le_iff_toNat_le]
  by_cases ha : a = x
  · rw [if_pos ha] at h
    exact ⟨UInt8.le_trans hzy h, fun _ => h⟩
  · rw [if_neg ha] at h
    exact ⟨h, fun e => absurd e ha⟩

theorem le_of_le_ite {a b x y z : UInt8} (hyz : y ≤ z) (h : b ≤ if a = x then y else z) :
    b.toNat ≤ z.toNat ∧ (a.toNat = x.toNat → b.toNat ≤ y.toNat) := by
  rw [UInt8.toNat_inj, ← UInt8.le_iff_toNat_le, ← UInt8.le_iff_toNat_le]
  by_cases ha : a = x
  · rw [if_pos ha] at h
    exact ⟨UInt8.le_trans h hyz, fun _ => h⟩
  · rw [if_neg ha] at h
    exact ⟨h, fun e => absurd e ha⟩

theorem begins_three {a : UInt8} (h : 0xE0 ≤ a.toNat) (h' : a.toNat < 0xF0) :
    Begins [a] (a.toNat - 0xE0) 1 (if a = 0xE0 then 0xA0 else 0x80)
      (if a = 0xED then 0x9F else 0xBF) := by
  intro b hl hh c hl' hh'
  have low := le_of_ite_le (by decide) hl
  have high := le_of_le_ite (by decide) hh
  simp only [UInt8.le_iff_toNat_le, UInt8.reduceToNat] at hl' hh' low high
  have valid : Nat.isValidChar (64 * (64 * (a.toNat - 0xE0) + b.toNat % 64) + c.toNat % 64) := by
    unfold Nat.isValidChar
    omega
  exact utf8EncodeChar_three valid (by omega) (by omega) (by omega) (by omega) (by omega)

theorem begins_four {a : UInt8} (h : 0xF0 ≤ a.toNat) (h' : a.toNat < 0xF5) :
    Begins [a] (a.toNat - 0xF0) 2 (if a = 0xF0 then 0x90 else 0x80)
      (if a = 0xF4 then 0x8F else 0xBF) := by
  intro b hl hh c hl' hh' d hl'' hh''
  have low := le_of_ite_le (by decide) hl
  have high := le_of_le_ite (by decide) hh
  simp only [UInt8.le_iff_toNat_le, UInt8.reduceToNat] at hl' hh' hl'' hh'' low high
  exact utf8EncodeChar_four (by omega) (by omega) (by omega) (by omega) (by omega) (by omega)

/-- A byte at the start is a character of ASCII, or broken, or begins a character outside ASCII, of
which all further bytes are outside ASCII. -/
theorem lead_cases (done : List Piece) (b : UInt8) :
    (b.toNat < 0x80 ∧ lead done b = (.start, .scalar (Char.ofNat b.toNat) :: done)) ∨
      (0x80 ≤ b.toNat ∧ lead done b = (.start, .broken :: done)) ∨
      ∃ value more low high, 0x80 ≤ b.toNat ∧ lead done b = (.inside value more low high, done) ∧
        Begins [b] value more low high ∧ 0x80 ≤ low := by
  unfold lead
  simp only [UInt8.lt_iff_toNat_lt, UInt8.reduceToNat]
  split
  · exact .inl ⟨by omega, rfl⟩
  split
  · exact .inr (.inl ⟨by omega, rfl⟩)
  split
  · exact .inr (.inr ⟨_, _, _, _, by omega, rfl, begins_two (by omega) (by omega), by decide⟩)
  split
  · refine .inr (.inr ⟨_, _, _, _, by omega, rfl, begins_three (by omega) (by omega), ?_⟩)
    split <;> decide
  split
  · refine .inr (.inr ⟨_, _, _, _, by omega, rfl, begins_four (by omega) (by omega), ?_⟩)
    split <;> decide
  · exact .inr (.inl ⟨by omega, rfl⟩)

/-- What the decoder has taken in, as far as no piece of it is broken: the characters made of it
and, in the middle of a character, the bytes that begin it. -/
def Taken (input : Bytes) : Progress → Prop
  | (.start, done) => ∀ text, done.reverse = text.map .scalar → input = ofChars text
  | (.inside value more low high, done) => ∃ front, Begins front value more low high ∧
    ∀ text, done.reverse = text.map .scalar → input = ofChars text ++ front

/-- A piece that is broken stays so. -/
theorem reverse_broken_ne (done : List Piece) (text : List Char) :
    (Piece.broken :: done).reverse ≠ text.map .scalar := by
  intro h
  have hm : Piece.broken ∈ text.map Piece.scalar := by
    rw [← h]
    simp
  simp at hm

/-- A character that was made last. -/
theorem exists_of_reverse_scalar {c : Char} {done : List Piece} {text : List Char}
    (h : (Piece.scalar c :: done).reverse = text.map .scalar) :
    ∃ front, done.reverse = front.map .scalar ∧ text = front ++ [c] := by
  rw [List.reverse_cons, eq_comm, List.map_eq_append_iff] at h
  obtain ⟨front, last, rfl, hf, hl⟩ := h
  obtain ⟨d, rfl, hd⟩ := List.map_eq_singleton_iff.1 hl
  cases hd
  exact ⟨front, hf.symm, rfl⟩

theorem taken_scalar {input front : Bytes} {done : List Piece} {c : Char}
    (h : ∀ text, done.reverse = text.map .scalar → input = ofChars text ++ front) {b : UInt8}
    (hc : String.utf8EncodeChar c = front ++ [b]) :
    Taken (input ++ [b]) (.start, .scalar c :: done) := by
  intro text ht
  obtain ⟨before, hb, rfl⟩ := exists_of_reverse_scalar ht
  rw [h before hb, ofChars_append, List.append_assoc, ← hc]
  simp [ofChars]

theorem taken_lead {input : Bytes} {done : List Piece} (h : Taken input (.start, done))
    (b : UInt8) :
    Taken (input ++ [b]) (lead done b) := by
  have h : ∀ text, done.reverse = text.map .scalar → input = ofChars text ++ [] := by
    intro text ht
    rw [h text ht, List.append_nil]
  obtain ⟨hb, hl⟩ | ⟨-, hl⟩ | ⟨value, more, low, high, -, hl, begins, -⟩ := lead_cases done b
  · rw [hl]
    exact taken_scalar h (utf8EncodeChar_one hb)
  · rw [hl]
    exact fun text ht => absurd ht (reverse_broken_ne done text)
  · rw [hl]
    refine ⟨[b], begins, fun text ht => ?_⟩
    rw [h text ht, List.append_nil]

theorem taken_step {input : Bytes} {p : Progress} (h : Taken input p) (b : UInt8) :
    Taken (input ++ [b]) (step p b) := by
  match p, h with
  | (.start, done), h => exact taken_lead h b
  | (.inside value more low high, done), ⟨front, hf, h⟩ =>
    by_cases hb : low ≤ b ∧ b ≤ high
    · cases more with
      | zero =>
        simp only [step, if_pos hb]
        exact taken_scalar h (hf b hb.1 hb.2)
      | succ more =>
        simp only [step, if_pos hb]
        refine ⟨front ++ [b], hf b hb.1 hb.2, fun text ht => ?_⟩
        rw [h text ht, List.append_assoc]
    · simp only [step, if_neg hb]
      exact taken_lead (fun text ht => absurd ht (reverse_broken_ne done text)) b

theorem taken_foldl (b : Bytes) {input : Bytes} {p : Progress} (h : Taken input p) :
    Taken (input ++ b) (b.foldl step p) := by
  induction b generalizing input p with
  | nil => simpa using h
  | cons x b ih =>
    have next := ih (taken_step h x)
    rwa [List.append_assoc] at next

/-- Bytes of which no piece is broken are those of the characters. -/
theorem eq_ofChars_of_pieces {b : Bytes} {text : List Char} (h : pieces b = text.map .scalar) :
    b = ofChars text := by
  have nothing : Taken [] (.start, []) := by
    intro text ht
    obtain rfl : text = [] := by simpa [eq_comm] using ht
    rfl
  have all := taken_foldl b nothing
  unfold pieces at h
  match b.foldl step (.start, []), all, h with
  | (.start, done), all, h => exact all text h
  | (.inside .., done), _, h => exact absurd h (reverse_broken_ne done text)

theorem eq_map_scalar {all : List Piece}
    (h : (all.filterMap Piece.scalar?).length = all.length) :
    all = (all.filterMap Piece.scalar?).map .scalar := by
  induction all with
  | nil => rfl
  | cons piece all ih =>
    cases piece with
    | scalar c =>
      have hs : Piece.scalar? (.scalar c) = some c := rfl
      rw [List.filterMap_cons_some hs, List.length_cons, List.length_cons] at h
      rw [List.filterMap_cons_some hs, List.map_cons, ← ih (by omega)]
    | broken =>
      have hle := List.length_filterMap_le Piece.scalar? all
      rw [List.filterMap_cons_none rfl, List.length_cons] at h
      omega

/-- A text is decoded from no other bytes than its encoding. -/
theorem encode_of_decode? {b : Bytes} {s : String} (h : decode? b = some s) : encode s = b := by
  simp only [decode?] at h
  split at h
  · next hl =>
    cases h
    rw [encode_eq_ofChars, String.toList_ofList]
    exact (eq_ofChars_of_pieces (eq_map_scalar hl)).symm
  · cases h

/-! ### ASCII in any bytes -/

/-- In the middle of a character outside ASCII: the bytes that begin it are followed by none of
ASCII. -/
def State.Outside : State → Prop
  | .start => True
  | .inside value more low high => 0x80 ≤ low ∧ ∃ front ≠ [], Begins front value more low high

/-- The characters of ASCII among those that pieces are shown as, the latest first as the pieces. -/
def asciiShown (done : List Piece) : List Char := (done.map Piece.shown).filter (·.toNat < 0x80)

/-- A character of more than one byte is outside ASCII. -/
theorem asciiShown_scalar {c : Char} {front : Bytes} {b : UInt8} (hf : front ≠ [])
    (hc : String.utf8EncodeChar c = front ++ [b]) (done : List Piece) :
    asciiShown (.scalar c :: done) = asciiShown done := by
  have outside : ¬ c.toNat < 0x80 := by
    intro h
    rw [utf8EncodeChar_of_ascii h, eq_comm, List.append_eq_singleton_iff] at hc
    simp [hf] at hc
  have shown : ¬ decide ((Piece.scalar c).shown.toNat < 0x80) = true := by
    rwa [decide_eq_true_eq]
  exact List.filter_cons_of_neg shown

theorem asciiShown_lead (done : List Piece) (b : UInt8) :
    (lead done b).1.Outside ∧ asciiShown (lead done b).2 =
      if b.toNat < 0x80 then Char.ofNat b.toNat :: asciiShown done else asciiShown done := by
  obtain ⟨hb, hl⟩ | ⟨hb, hl⟩ | ⟨value, more, low, high, hb, hl, begins, hlow⟩ := lead_cases done b
  · have hv : (Char.ofNat b.toNat).toNat = b.toNat := val_ofNat (.inl (by omega))
    rw [hl, if_pos hb, asciiShown, List.map_cons,
      List.filter_cons_of_pos (by simpa [Piece.shown, hv] using hb)]
    exact ⟨trivial, rfl⟩
  · rw [hl, if_neg (by omega)]
    exact ⟨trivial, rfl⟩
  · rw [hl, if_neg (by omega)]
    exact ⟨⟨hlow, [b], by simp, begins⟩, rfl⟩

theorem asciiShown_step {p : Progress} (h : p.1.Outside) (b : UInt8) :
    (step p b).1.Outside ∧ asciiShown (step p b).2 =
      if b.toNat < 0x80 then Char.ofNat b.toNat :: asciiShown p.2 else asciiShown p.2 := by
  match p, h with
  | (.start, done), _ => exact asciiShown_lead done b
  | (.inside value more low high, done), ⟨hlow, front, hf, begins⟩ =>
    by_cases hb : low ≤ b ∧ b ≤ high
    · have outside : ¬ b.toNat < 0x80 := by
        have := UInt8.le_iff_toNat_le.1 (UInt8.le_trans hlow hb.1)
        simpa using this
      cases more with
      | zero =>
        simp only [step, if_pos hb, if_neg outside]
        exact ⟨trivial, asciiShown_scalar hf (begins b hb.1 hb.2) done⟩
      | succ more =>
        simp only [step, if_pos hb, if_neg outside]
        exact ⟨⟨by decide, front ++ [b], by simp, begins b hb.1 hb.2⟩, trivial⟩
    · -- the character breaks off, which is shown outside ASCII, and the byte is a first one again
      simp only [step, if_neg hb]
      exact asciiShown_lead (.broken :: done) b

theorem asciiShown_foldl (b : Bytes) {p : Progress} (h : p.1.Outside) :
    asciiShown (b.foldl step p).2 =
      ((b.filter (·.toNat < 0x80)).map fun x => Char.ofNat x.toNat).reverse ++ asciiShown p.2 := by
  induction b generalizing p with
  | nil => rfl
  | cons x b ih =>
    obtain ⟨later, hx⟩ := asciiShown_step h x
    rw [List.foldl_cons, ih later, hx]
    by_cases hlt : x.toNat < 0x80
    · rw [if_pos hlt, List.filter_cons_of_pos (by simpa using hlt)]
      simp
    · rw [if_neg hlt, List.filter_cons_of_neg (by simpa using hlt)]

/-- Whatever bytes are shown as text, its characters of ASCII are the bytes of ASCII, in their
order. -/
theorem ascii_decodeLossy (b : Bytes) :
    (decodeLossy b).toList.filter (·.toNat < 0x80) =
      (b.filter (·.toNat < 0x80)).map fun x => Char.ofNat x.toNat := by
  have all := asciiShown_foldl b (p := (.start, [])) trivial
  have shown : ((pieces b).map Piece.shown).filter (·.toNat < 0x80) =
      (asciiShown (b.foldl step (.start, [])).2).reverse := by
    rw [asciiShown, ← List.filter_reverse, ← List.map_reverse]
    unfold pieces
    rcases b.foldl step (.start, []) with ⟨_ | _, done⟩
    · rfl
    · rw [finish, List.reverse_cons, List.map_append, List.filter_append]
      exact List.append_nil _
  rw [decodeLossy, String.toList_ofList, shown, all]
  simp [asciiShown]

theorem mem_decodeLossy_iff {c : Char} (hc : c.toNat < 0x80) {b : Bytes} :
    c ∈ (decodeLossy b).toList ↔ UInt8.ofNat c.toNat ∈ b := by
  have number : (UInt8.ofNat c.toNat).toNat = c.toNat := toNat_ofNat_of_lt (by omega)
  have same : c ∈ (decodeLossy b).toList ↔
      c ∈ (decodeLossy b).toList.filter (·.toNat < 0x80) := by simp [hc]
  rw [same, ascii_decodeLossy, List.mem_map]
  constructor
  · rintro ⟨x, hx, rfl⟩
    obtain ⟨hx, hlt⟩ := List.mem_filter.1 hx
    have hv : (Char.ofNat x.toNat).toNat = x.toNat :=
      val_ofNat (.inl (by simp only [decide_eq_true_eq] at hlt; omega))
    rwa [hv, UInt8.ofNat_toNat]
  · intro h
    refine ⟨_, List.mem_filter.2 ⟨h, by simpa [number] using hc⟩, ?_⟩
    rw [number, Char.ofNat_toNat]

end SshKeyring.Utf8
