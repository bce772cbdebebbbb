import Mathlib.Data.List.Induction
import SshKeyring.Proofs.Text.Utf8
import SshKeyring.Text.Blank
import SshKeyring.Text.Hex

/-! Two hexadecimal digits for each byte, in either case, are read back as the bytes, so no two byte
strings are written alike, with colons or without. The numbers that pairs are read as may begin with
a plus sign, which says as much as a zero; but for that, nothing else is read. Texts that are read
are ASCII, with one byte for each character, so their pairs of bytes are pairs of characters. -/

namespace SshKeyring

/-! ### Case -/

theorem forall_upper {P : Char → Prop} (h : ∀ n < 26, P (Char.ofNat (65 + n))) {c : Char}
    (hc : c.isUpper = true) : P c := by
  obtain ⟨ha, hz⟩ : 'A'.val ≤ c.val ∧ c.val ≤ 'Z'.val := of_decide_eq_true hc
  have lo : 65 ≤ c.toNat := UInt32.le_iff_toNat_le.1 ha
  have hi : c.toNat ≤ 90 := UInt32.le_iff_toNat_le.1 hz
  have same := h (c.toNat - 65) (by omega)
  rwa [Nat.add_sub_cancel' lo, Char.ofNat_toNat] at same

theorem toLower_of_not_isUpper {c : Char} (hc : ¬c.isUpper = true) : c.toLower = c :=
  dif_neg fun h => hc (decide_eq_true h)

/-- What holds of the lower case of a character holds of it, if it holds of capitals as well. -/
theorem of_toLower {P : Char → Prop} (h : ∀ n < 26, P (Char.ofNat (65 + n)).toLower →
    P (Char.ofNat (65 + n))) {c : Char} (hc : P c.toLower) : P c := by
  by_cases hu : c.isUpper = true
  · exact forall_upper (P := fun c => P c.toLower → P c) h hu hc
  · rwa [toLower_of_not_isUpper hu] at hc

namespace Hex

/-! ### Digits -/

theorem value?_digit : ∀ v < 16, value? (digit v) = some v := by decide

theorem value?_of_toLower {c : Char} {v : Nat} (hv : v < 16) (h : c.toLower = digit v) :
    value? c = some v := by
  have capitals : ∀ n < 26,
      value? (Char.ofNat (65 + n)).toLower = value? (Char.ofNat (65 + n)) := by decide
  refine of_toLower (P := fun c => value? c = some v) (fun n hn hc => capitals n hn ▸ hc) ?_
  rw [h, value?_digit v hv]

theorem toNat_lt_of_value? {c : Char} {v : Nat} (h : value? c = some v) : c.toNat < 0x80 := by
  refine Nat.lt_of_not_le fun hc => ?_
  rw [value?, if_neg (by omega), if_neg (by omega), if_neg (by omega)] at h
  cases h

theorem toLower_of_value? {c : Char} {v : Nat} (h : value? c = some v) :
    v < 16 ∧ c.toLower = digit v := by
  have all : ∀ n < 0x80, ∀ v ∈ value? (Char.ofNat n),
      v < 16 ∧ (Char.ofNat n).toLower = digit v := by decide
  have same := all c.toNat (toNat_lt_of_value? h) v
  rw [Char.ofNat_toNat] at same
  exact same h

/-- The digits are those that are written, in either case. -/
theorem value?_eq_some_iff {c : Char} {v : Nat} :
    value? c = some v ↔ v < 16 ∧ c.toLower = digit v :=
  ⟨toLower_of_value?, fun ⟨hv, h⟩ => value?_of_toLower hv h⟩

theorem ne_plus_of_value? {c : Char} {v : Nat} (h : value? c = some v) : c ≠ '+' := by
  rintro rfl
  cases h

theorem isBlank_of_toLower {c : Char} {v : Nat} (hv : v < 16) (h : c.toLower = digit v) :
    isBlank c = false := by
  have capitals : ∀ n < 26, isBlank (Char.ofNat (65 + n)) = false := by decide
  have digits : ∀ v < 16, isBlank (digit v) = false := by decide
  refine of_toLower (P := fun c => isBlank c = false) (fun n hn _ => capitals n hn) ?_
  rw [h, digits v hv]

/-! ### Texts -/

/-- A text of two digits for each byte, in either case. -/
def Spells (text : List Char) (b : Bytes) : Prop := text.map Char.toLower = encode b

theorem mem_encode {b : Bytes} {c : Char} (h : c ∈ encode b) : ∃ v < 16, c = digit v := by
  obtain ⟨x, -, hx⟩ := List.mem_flatMap.1 h
  have lt := x.toNat_lt
  simp only [encodeByte, List.mem_cons, List.not_mem_nil, or_false] at hx
  rcases hx with rfl | rfl
  · exact ⟨x.toNat / 16, by omega, rfl⟩
  · exact ⟨x.toNat % 16, by omega, rfl⟩

theorem Spells.isBlank_eq_false {text : List Char} {b : Bytes} (h : Spells text b) :
    ∀ c ∈ text, isBlank c = false := by
  intro c hc
  obtain ⟨v, hv, e⟩ := mem_encode (h ▸ List.mem_map_of_mem hc : c.toLower ∈ encode b)
  exact isBlank_of_toLower hv e

/-- A pair spells a byte if it has the values of its two digits. -/
theorem spells_pair_iff {high low : Char} {x : UInt8} : Spells [high, low] [x] ↔
    value? high = some (x.toNat / 16) ∧ value? low = some (x.toNat % 16) := by
  have lt := x.toNat_lt
  have hhigh : x.toNat / 16 < 16 := by omega
  have hlow : x.toNat % 16 < 16 := by omega
  simp [Spells, encode, encodeByte, value?_eq_some_iff, hhigh, hlow]

theorem spells_cons_iff {text : List Char} {x : UInt8} {b : Bytes} : Spells text (x :: b) ↔
    ∃ high low rest, text = high :: low :: rest ∧ Spells [high, low] [x] ∧ Spells rest b := by
  constructor
  · intro h
    simp only [Spells, encode, List.flatMap_cons, encodeByte, List.cons_append, List.nil_append,
      List.map_eq_cons_iff] at h
    obtain ⟨high, _, rfl, hhigh, low, rest, rfl, hlow, hrest⟩ := h
    exact ⟨high, low, rest, rfl, congrArg₂ (fun c d => [c, d]) hhigh hlow, hrest⟩
  · rintro ⟨high, low, rest, rfl, hpair, hrest⟩
    have joined : ([high, low] ++ rest).map Char.toLower = encode [x] ++ encode b := by
      rw [List.map_append, hpair, hrest]
    simpa [Spells, encode] using joined

/-! ### Plus signs -/

/-- A text of two places for each byte: its two digits in either case, or a plus sign in the place
of a first digit that is zero. -/
inductive Denotes : List Char → Bytes → Prop
  | nil : Denotes [] []
  | digits {high low : Char} {x : UInt8} {text : List Char} {b : Bytes} :
      Spells [high, low] [x] → Denotes text b → Denotes (high :: low :: text) (x :: b)
  | plus {low : Char} {x : UInt8} {text : List Char} {b : Bytes} :
      Spells ['0', low] [x] → Denotes text b → Denotes ('+' :: low :: text) (x :: b)

theorem denotes_cons_iff {high low : Char} {text : List Char} {b : Bytes} :
    Denotes (high :: low :: text) b ↔
      ∃ x rest, Denotes [high, low] [x] ∧ Denotes text rest ∧ b = x :: rest := by
  constructor
  · intro h
    cases h with
    | digits hx hrest => exact ⟨_, _, .digits hx .nil, hrest, rfl⟩
    | plus hx hrest => exact ⟨_, _, .plus hx .nil, hrest, rfl⟩
  · rintro ⟨x, rest, hx, hrest, rfl⟩
    cases hx with
    | digits hx => exact .digits hx hrest
    | plus hx => exact .plus hx hrest

/-- A text in ASCII of which no odd character is left over. -/
def IsPaired (text : List Char) : Prop := (∀ c ∈ text, c.toNat < 0x80) ∧ text.length % 2 = 0

theorem isPaired_cons_iff {high low : Char} {text : List Char} :
    IsPaired (high :: low :: text) ↔ high.toNat < 0x80 ∧ low.toNat < 0x80 ∧ IsPaired text := by
  simp only [IsPaired, List.forall_mem_cons, List.length_cons, Nat.add_assoc, Nat.add_mod_right,
    and_assoc]

theorem Denotes.isPaired {text : List Char} {b : Bytes} (h : Denotes text b) : IsPaired text := by
  induction h with
  | nil => exact ⟨by simp, rfl⟩
  | digits hx _ ih =>
    obtain ⟨high, low⟩ := spells_pair_iff.1 hx
    exact isPaired_cons_iff.2 ⟨toNat_lt_of_value? high, toNat_lt_of_value? low, ih⟩
  | plus hx _ ih =>
    obtain ⟨-, low⟩ := spells_pair_iff.1 hx
    exact isPaired_cons_iff.2 ⟨by decide, toNat_lt_of_value? low, ih⟩

/-- Just the texts without a plus sign have all their digits. -/
theorem spells_iff {text : List Char} {b : Bytes} :
    Spells text b ↔ Denotes text b ∧ '+' ∉ text := by
  constructor
  · intro h
    induction b generalizing text with
    | nil =>
      rw [List.map_eq_nil_iff.1 h]
      exact ⟨.nil, List.not_mem_nil⟩
    | cons x b ih =>
      obtain ⟨high, low, rest, rfl, hx, hrest⟩ := spells_cons_iff.1 h
      obtain ⟨denotes, notMem⟩ := ih hrest
      obtain ⟨hhigh, hlow⟩ := spells_pair_iff.1 hx
      exact ⟨.digits hx denotes, List.not_mem_cons_of_ne_of_not_mem (ne_plus_of_value? hhigh).symm
        (List.not_mem_cons_of_ne_of_not_mem (ne_plus_of_value? hlow).symm notMem)⟩
  · rintro ⟨h, notMem⟩
    induction h with
    | nil => rfl
    | digits hx _ ih =>
      have rest := ih fun hm => notMem (List.mem_cons_of_mem _ (List.mem_cons_of_mem _ hm))
      exact spells_cons_iff.2 ⟨_, _, _, rfl, hx, rest⟩
    | plus => exact absurd List.mem_cons_self notMem

/-! ### Numbers -/

theorem addDigit?_eq_some_iff {n m : Nat} {code : UInt8} : addDigit? n code = some m ↔
    ∃ v, value? (Char.ofUInt8 code) = some v ∧ 16 * n + v = m ∧ m < 256 := by
  simp only [addDigit?, Option.bind_eq_bind, Option.bind_eq_some_iff]
  refine exists_congr fun v => and_congr_right fun _ => ?_
  split
  · next h => simpa using fun e => e ▸ h
  · next h => simpa using fun e => e ▸ Nat.le_of_not_lt h

theorem unsigned_of_ne_plus {first : UInt8} (h : first ≠ 43) (rest : Bytes) :
    unsigned (first :: rest) = first :: rest := by
  unfold unsigned
  split
  · next e => exact absurd (List.cons.inj e).1 h
  · rfl

theorem number?_of_unsigned {text digits : Bytes} (h : unsigned text = digits)
    (hne : digits ≠ []) : number? text = (digits.foldlM addDigit? 0).map UInt8.ofNat := by
  subst h
  unfold number?
  split
  · next e => exact absurd e hne
  · rfl

/-- A plus sign in front of digits says as much as a zero there. -/
theorem number?_plus {digits : Bytes} (h : digits ≠ []) :
    number? (43 :: digits) = number? (48 :: digits) := by
  have zero : addDigit? 0 48 = some 0 := by decide
  have plain : unsigned (48 :: digits) = 48 :: digits := unsigned_of_ne_plus (by decide) digits
  have signed : unsigned (43 :: digits) = digits := rfl
  rw [number?_of_unsigned signed h, number?_of_unsigned plain (List.cons_ne_nil _ _),
    List.foldlM_cons, zero]
  rfl

theorem number?_pair {high low : Char} (hh : high.toNat < 0x80) (hl : low.toNat < 0x80)
    (hne : high ≠ '+') {x : UInt8} :
    number? (Utf8.ofChars [high, low]) = some x ↔ Spells [high, low] [x] := by
  have codes : Utf8.ofChars [high, low] = [UInt8.ofNat high.toNat, UInt8.ofNat low.toNat] :=
    Utf8.ofChars_of_ascii (by simp [hh, hl])
  have first : UInt8.ofNat high.toNat ≠ 43 := by
    intro e
    have same := Utf8.ofUInt8_ofNat_of_ascii hh
    rw [e] at same
    exact hne same.symm
  have plain := unsigned_of_ne_plus first [UInt8.ofNat low.toNat]
  -- two digits make no number that is too large, so the bound refuses nothing
  have lt := x.toNat_lt
  rw [codes, number?_of_unsigned plain (List.cons_ne_nil _ _), spells_pair_iff,
    Option.map_eq_some_iff]
  simp only [List.foldlM_cons, List.foldlM_nil, Option.bind_eq_bind, Option.bind_eq_some_iff,
    addDigit?_eq_some_iff, Utf8.ofUInt8_ofNat_of_ascii hh, Utf8.ofUInt8_ofNat_of_ascii hl]
  constructor
  · rintro ⟨_, ⟨_, ⟨v, hv, rfl, -⟩, _, ⟨w, hw, rfl, -⟩, ⟨⟩⟩, rfl⟩
    have hv16 := (value?_eq_some_iff.1 hv).1
    have hw16 := (value?_eq_some_iff.1 hw).1
    rw [hv, hw, UInt8.toNat_ofNat', Option.some_inj, Option.some_inj]
    omega
  · rintro ⟨hv, hw⟩
    refine ⟨x.toNat, ⟨_, ⟨_, hv, rfl, by omega⟩, _, ⟨_, hw, rfl, by omega⟩, ?_⟩,
      UInt8.ofNat_toNat⟩
    exact congrArg some (by omega)

theorem number?_eq_some_iff {high low : Char} (hh : high.toNat < 0x80) (hl : low.toNat < 0x80)
    {x : UInt8} : number? (Utf8.ofChars [high, low]) = some x ↔ Denotes [high, low] [x] := by
  by_cases hne : high = '+'
  · subst hne
    have behind : Utf8.ofChars [low] ≠ [] := by
      rw [Utf8.ofChars_of_ascii (by simpa using hl)]
      exact List.cons_ne_nil _ _
    have zero : number? (Utf8.ofChars ['+', low]) = number? (Utf8.ofChars ['0', low]) :=
      number?_plus behind
    rw [zero, number?_pair (by decide) hl (by decide)]
    constructor
    · exact fun h => .plus h .nil
    · intro h
      cases h with
      | digits h => exact absurd rfl (ne_plus_of_value? (spells_pair_iff.1 h).1)
      | plus h => exact h
  · rw [number?_pair hh hl hne]
    constructor
    · exact fun h => .digits h .nil
    · intro h
      cases h with
      | digits h => exact h
      | plus h => exact absurd rfl hne

/-! ### Pairs -/

theorem pieces_pair {α : Type} (a b : α) (text : List α) :
    pieces 2 (a :: b :: text) = [a, b] :: pieces 2 text :=
  show pieces 2 ([a, b] ++ text) = _ from pieces_append Nat.zero_lt_two rfl text

/-- A text in ASCII is cut between its characters. -/
theorem pieces_ofChars {text : List Char} (h : ∀ c ∈ text, c.toNat < 0x80) :
    pieces 2 (Utf8.ofChars text) = (pieces 2 text).map Utf8.ofChars := by
  induction text using List.twoStepInduction with
  | nil => rfl
  | singleton a =>
    have code : Utf8.ofChars [a] = [UInt8.ofNat a.toNat] := Utf8.ofChars_of_ascii h
    show pieces 2 (Utf8.ofChars [a]) = [Utf8.ofChars [a]]
    rw [code]
    rfl
  | cons_cons a b text ih _ =>
    simp only [List.forall_mem_cons] at h
    obtain ⟨ha, hb, rest⟩ := h
    have two : (Utf8.ofChars [a, b]).length = 2 := by
      rw [Utf8.ofChars_of_ascii (by simp [ha, hb])]
      rfl
    rw [show a :: b :: text = [a, b] ++ text from rfl, Utf8.ofChars_append,
      pieces_append Nat.zero_lt_two two, ih rest, List.cons_append, List.singleton_append,
      pieces_pair, List.map_cons]

theorem pairs?_eq_some_iff {text : List Char} {ps : List Bytes} :
    pairs? text = some ps ↔ IsPaired text ∧ ps = (pieces 2 text).map Utf8.ofChars := by
  have bytes : text.flatMap String.utf8EncodeChar = Utf8.ofChars text := rfl
  simp only [pairs?, bytes, Option.ite_none_right_eq_some, Option.some_inj, List.all_eq_true,
    decide_eq_true_eq, Utf8.ascii_ofChars_iff]
  constructor
  · rintro ⟨⟨even, ascii⟩, rfl⟩
    rw [Utf8.ofChars_of_ascii ascii, List.length_map] at even
    exact ⟨⟨ascii, even⟩, pieces_ofChars ascii⟩
  · rintro ⟨⟨ascii, even⟩, rfl⟩
    rw [pieces_ofChars ascii, Utf8.ofChars_of_ascii ascii, List.length_map]
    exact ⟨⟨even, ascii⟩, rfl⟩

theorem mapM_number?_eq_some_iff {text : List Char} (h : IsPaired text) {b : Bytes} :
    ((pieces 2 text).map Utf8.ofChars).mapM number? = some b ↔ Denotes text b := by
  induction text using List.twoStepInduction generalizing b with
  | nil =>
    constructor
    · rintro ⟨⟩
      exact .nil
    · rintro ⟨⟩
      rfl
  | singleton a => cases h.2
  | cons_cons high low text ih _ =>
    obtain ⟨hh, hl, h⟩ := isPaired_cons_iff.1 h
    rw [pieces_pair, List.map_cons, List.mapM_cons, denotes_cons_iff]
    simp only [Option.bind_eq_bind, Option.bind_eq_some_iff, number?_eq_some_iff hh hl, ih h]
    constructor
    · rintro ⟨x, hx, rest, hrest, ⟨⟩⟩
      exact ⟨x, rest, hx, hrest, rfl⟩
    · rintro ⟨x, rest, hx, hrest, rfl⟩
      exact ⟨x, hx, rest, hrest, rfl⟩

theorem decodePairs?_eq_some_iff {text : List Char} {b : Bytes} :
    decodePairs? text = some b ↔ Denotes text b := by
  simp only [decodePairs?, Option.bind_eq_bind, Option.bind_eq_some_iff, pairs?_eq_some_iff]
  constructor
  · rintro ⟨_, ⟨paired, rfl⟩, h⟩
    exact (mapM_number?_eq_some_iff paired).1 h
  · intro h
    exact ⟨_, ⟨h.isPaired, rfl⟩, (mapM_number?_eq_some_iff h.isPaired).2 h⟩

theorem Spells.decodePairs?_eq {text : List Char} {b : Bytes} (h : Spells text b) :
    decodePairs? text = some b :=
  decodePairs?_eq_some_iff.2 (spells_iff.1 h).1

/-! ### What is written -/

theorem toLower_digit : ∀ v < 16, (digit v).toLower = digit v := by decide

theorem digit_ne_colon : ∀ v < 16, digit v ≠ ':' := by decide

theorem spells_encode (b : Bytes) : Spells (encode b) b := by
  have lower : ∀ c ∈ encode b, c.toLower = id c := fun c hc => by
    obtain ⟨v, hv, rfl⟩ := mem_encode hc
    exact toLower_digit v hv
  rw [Spells, List.map_congr_left lower, List.map_id]

/-- No two byte strings have the same digits. -/
theorem encode_inj {b c : Bytes} : encode b = encode c ↔ b = c := by
  constructor
  · intro h
    have read := (spells_encode b).decodePairs?_eq
    rw [h, (spells_encode c).decodePairs?_eq] at read
    exact (Option.some.inj read).symm
  · rintro rfl
    rfl

theorem filter_encodeByte (x : UInt8) : (encodeByte x).filter (· ≠ ':') = encodeByte x := by
  have lt := x.toNat_lt
  have high := digit_ne_colon (x.toNat / 16) (by omega)
  have low := digit_ne_colon (x.toNat % 16) (by omega)
  simp [encodeByte, high, low]

/-- Without the colons the digits are left. -/
theorem filter_encodeColons (b : Bytes) : (encodeColons b).filter (· ≠ ':') = encode b := by
  unfold encodeColons
  induction b with
  | nil => rfl
  | cons x b ih =>
    cases b with
    | nil =>
      rw [List.map_singleton, List.intercalate_singleton, filter_encodeByte, encode,
        List.flatMap_singleton]
    | cons y b =>
      rw [List.map_cons, List.map_cons, List.intercalate_cons_cons, ← List.map_cons,
        List.filter_append, List.filter_append, ih, filter_encodeByte]
      rfl

theorem encodeColons_inj {b c : Bytes} : encodeColons b = encodeColons c ↔ b = c := by
  constructor
  · intro h
    rw [← encode_inj, ← filter_encodeColons, h, filter_encodeColons]
  · rintro rfl
    rfl

end Hex

end SshKeyring
