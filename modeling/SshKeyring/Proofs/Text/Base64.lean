import SshKeyring.Proofs.Text.Utf8
import SshKeyring.Reader
import SshKeyring.Text.Base64

/-! Base64 is read back. Every group of three bytes becomes four symbols of the alphabet, whose
values give the bytes again; the last group is the one that may be short, and its padding makes
it four symbols long, so that decoding finds it where encoding has put it. Nothing else decodes: a
value has one symbol only, padding stands at the end of the last group only, and the bits that are
discarded there are zero. A text without its padding tells the bytes as well, since its length tells
how much padding is missing. -/

namespace SshKeyring.Base64

/-- The symbol of a value as it stands in a text of bytes. -/
def code (v : Nat) : UInt8 := UInt8.ofNat (symbol v).toNat

theorem value?_code : ∀ v < 64, value? (code v) = some v := by decide

theorem code_ne_pad : ∀ v < 64, code v ≠ 61 := by decide

/-- The four values of a group of three bytes. -/
def sextets (a b c : UInt8) : List Nat :=
  [a.toNat / 4, a.toNat % 4 * 16 + b.toNat / 16, b.toNat % 16 * 4 + c.toNat / 64, c.toNat % 64]

theorem sextets_lt (a b c : UInt8) : ∀ v ∈ sextets a b c, v < 64 := by
  have ha := a.toNat_lt
  have hb := b.toNat_lt
  have hc := c.toNat_lt
  intro v hv
  simp only [sextets, List.mem_cons, List.not_mem_nil, or_false] at hv
  omega

theorem decodeQuad_sextets (a b c : UInt8) : decodeQuad (sextets a b c) = [a, b, c] := by
  have ha := a.toNat_lt
  have hb := b.toNat_lt
  have hc := c.toNat_lt
  simp only [sextets, decodeQuad, List.cons.injEq, and_true, ← UInt8.toNat_inj, UInt8.toNat_ofNat']
  omega

theorem encodeGroup_three (a b c : UInt8) : encodeGroup [a, b, c] = (sextets a b c).map symbol := rfl

theorem encodeUnpadded_three (a b c : UInt8) (rest : Bytes) :
    encodeUnpadded (a :: b :: c :: rest) = (sextets a b c).map symbol ++ encodeUnpadded rest := by
  have h : pieces 3 (a :: b :: c :: rest) = [a, b, c] :: pieces 3 rest :=
    @pieces_append _ 3 (by decide) [a, b, c] rfl rest
  rw [encodeUnpadded, h, List.flatMap_cons, encodeGroup_three, encodeUnpadded]

theorem toNat_symbol_lt : ∀ v < 64, (symbol v).toNat < 0x80 := by decide

theorem ofChars_symbols {values : List Nat} (h : ∀ v ∈ values, v < 64) :
    Utf8.ofChars (values.map symbol) = values.map code := by
  have ascii : ∀ c ∈ values.map symbol, c.toNat < 0x80 := by
    intro c hc
    obtain ⟨v, hv, rfl⟩ := List.mem_map.1 hc
    exact toNat_symbol_lt v (h v hv)
  rw [Utf8.ofChars_of_ascii ascii, List.map_map]
  rfl

theorem ofChars_pads (n : Nat) : Utf8.ofChars (List.replicate n pad) = List.replicate n 61 := by
  have ascii : ∀ c ∈ List.replicate n pad, c.toNat < 0x80 := by
    intro c hc
    rw [List.eq_of_mem_replicate hc]
    decide
  rw [Utf8.ofChars_of_ascii ascii, List.map_replicate]
  rfl

theorem mem_encodeGroup {group : Bytes} {c : Char} (h : c ∈ encodeGroup group) :
    ∃ v < 64, symbol v = c := by
  unfold encodeGroup at h
  split at h
  case h_1 a =>
    have ha := a.toNat_lt
    simp only [List.mem_cons, List.not_mem_nil, or_false] at h
    rcases h with rfl | rfl
    all_goals exact ⟨_, by omega, rfl⟩
  case h_2 a b =>
    have ha := a.toNat_lt
    have hb := b.toNat_lt
    simp only [List.mem_cons, List.not_mem_nil, or_false] at h
    rcases h with rfl | rfl | rfl
    all_goals exact ⟨_, by omega, rfl⟩
  case h_3 a b d =>
    have e : [symbol _, symbol _, symbol _, symbol _] = (sextets a b d).map symbol := rfl
    rw [e] at h
    obtain ⟨v, hv, rfl⟩ := List.mem_map.1 h
    exact ⟨v, sextets_lt a b d v hv, rfl⟩
  case h_4 => exact absurd h List.not_mem_nil

/-- An encoded text consists of symbols of the alphabet and padding. -/
theorem mem_encode {b : Bytes} {c : Char} (h : c ∈ encode b) : c = pad ∨ ∃ v < 64, symbol v = c := by
  rcases List.mem_append.1 h with h | h
  · obtain ⟨group, -, h⟩ := List.mem_flatMap.1 h
    exact .inr (mem_encodeGroup h)
  · exact .inl (List.eq_of_mem_replicate h)

/-- What holds of the padding and of every symbol holds of every character of an encoded text. -/
theorem forall_mem_encode {P : Char → Prop} (hpad : P pad) (hsymbol : ∀ v < 64, P (symbol v))
    (b : Bytes) : ∀ c ∈ encode b, P c := by
  intro c hc
  rcases mem_encode hc with rfl | ⟨v, hv, rfl⟩
  · exact hpad
  · exact hsymbol v hv

theorem forall_mem_pieces_encode {P : Char → Prop} (hpad : P pad)
    (hsymbol : ∀ v < 64, P (symbol v)) {width : Nat} (hw : 0 < width) {b : Bytes} {row : List Char}
    (hr : row ∈ pieces width (encode b)) : ∀ c ∈ row, P c := by
  intro c hc
  apply forall_mem_encode hpad hsymbol b
  rw [← flatten_pieces hw (encode b)]
  exact List.mem_flatten.2 ⟨row, hr, hc⟩

/-- Reading what groups of three bytes have become: their symbols are all in the alphabet, four to
a group, and the values stand for the bytes. -/
theorem front_groups (n : Nat) (front : Bytes) (hf : front.length = 3 * n) :
    ∃ values : List Nat, (∀ v ∈ values, v < 64) ∧ values.length = 4 * n ∧
      (pieces 4 values).flatMap decodeQuad = front ∧
      ∀ rest, encodeUnpadded (front ++ rest) = values.map symbol ++ encodeUnpadded rest := by
  induction n generalizing front with
  | zero =>
    rw [List.length_eq_zero_iff.1 hf]
    exact ⟨[], by simp, rfl, rfl, fun _ => rfl⟩
  | succ n ih =>
    match front, hf with
    | a :: b :: c :: front, hf =>
      obtain ⟨values, hlt, hlen, hdecode, hencode⟩ := ih front (by simp at hf; omega)
      refine ⟨sextets a b c ++ values, ?_, ?_, ?_, ?_⟩
      · intro v hv
        exact (List.mem_append.1 hv).elim (sextets_lt a b c v) (hlt v)
      · simp [sextets, hlen]; omega
      · rw [@pieces_append _ 4 (by decide) (sextets a b c) rfl, List.flatMap_cons,
          decodeQuad_sextets, hdecode]
        rfl
      · intro rest
        simp only [List.cons_append, encodeUnpadded_three, hencode, List.map_append,
          List.append_assoc]

theorem readLast_codes (start : Nat) (values : List Nat) (h : ∀ v ∈ values, v < 64) (place : Nat)
    (done : List Nat) (rest : Bytes) :
    readLast start place none done (values.map code ++ rest) =
      readLast start (place + values.length) none (values.reverse ++ done) rest := by
  induction values generalizing place done with
  | nil => rfl
  | cons v values ih =>
    have hv : v < 64 := h v (by simp)
    rw [List.map_cons, List.cons_append, readLast, if_neg (code_ne_pad v hv), value?_code v hv]
    simp only [ih (fun w hw => h w (by simp [hw]))]
    simp [Nat.add_assoc, Nat.add_comm 1]

theorem readLast_pads (start : Nat) (n : Nat) {place : Nat} (h : 2 ≤ place) (padAt : Option Nat)
    (done : List Nat) :
    readLast start place padAt done (List.replicate n 61) = .ok done.reverse := by
  induction n generalizing place padAt with
  | zero => simp [readLast]
  | succ n ih =>
    have hp : ¬place < 2 := by omega
    simp only [List.replicate_succ, readLast, if_pos, if_neg hp]
    exact ih (by omega) _

theorem readLast_group (start : Nat) {values : List Nat} (h : ∀ v ∈ values, v < 64)
    (h2 : 2 ≤ values.length) (n : Nat) :
    readLast start 0 none [] (values.map code ++ List.replicate n 61) = .ok values := by
  rw [readLast_codes start values h, readLast_pads start n (by omega)]
  simp

theorem decodeLast_two (start : Nat) {x y : Nat} (h : ∀ v ∈ [x, y], v < 64) (hy : y % 16 = 0) :
    decodeLast start ([x, y].map code ++ List.replicate 2 61) =
      .ok [UInt8.ofNat (x * 4 + y / 16)] := by
  rw [decodeLast, readLast_group start h (by simp)]
  simp [bind, Except.bind, hy]

theorem decodeLast_three (start : Nat) {x y z : Nat} (h : ∀ v ∈ [x, y, z], v < 64)
    (hz : z % 4 = 0) :
    decodeLast start ([x, y, z].map code ++ List.replicate 1 61) =
      .ok [UInt8.ofNat (x * 4 + y / 16), UInt8.ofNat (y % 16 * 16 + z / 4)] := by
  rw [decodeLast, readLast_group start h (by simp)]
  simp [bind, Except.bind, hz]

theorem decodeLast_four (start : Nat) {x y z w : Nat} (h : ∀ v ∈ [x, y, z, w], v < 64) :
    decodeLast start ([x, y, z, w].map code ++ List.replicate 0 61) =
      .ok (decodeQuad [x, y, z, w]) := by
  rw [decodeLast, readLast_group start h (by simp)]
  simp [bind, Except.bind]

theorem encode_one (a : UInt8) :
    encode [a] = ((sextets a 0 0).take 2).map symbol ++ List.replicate 2 pad := rfl

theorem encode_two (a b : UInt8) :
    encode [a, b] = ((sextets a b 0).take 3).map symbol ++ List.replicate 1 pad := rfl

theorem encode_three (a b c : UInt8) :
    encode [a, b, c] = (sextets a b c).map symbol ++ List.replicate 0 pad := by
  rw [encode, encodeUnpadded_three]
  simp [encodeUnpadded, padding]

/-- The last group, of one to three bytes, takes four symbols and is read back wherever it
stands. -/
theorem decodeLast_encode {last : Bytes} (h : 0 < last.length) (h' : last.length ≤ 3) :
    (Utf8.ofChars (encode last)).length = 4 ∧
      ∀ start, decodeLast start (Utf8.ofChars (encode last)) = .ok last := by
  match last, h, h' with
  | [a], _, _ =>
    have ha := a.toNat_lt
    have hlt : ∀ v ∈ [a.toNat / 4, a.toNat % 4 * 16], v < 64 := by simp; omega
    have e : encode [a] = [a.toNat / 4, a.toNat % 4 * 16].map symbol ++ List.replicate 2 pad :=
      encode_one a
    rw [e, Utf8.ofChars_append, ofChars_symbols hlt, ofChars_pads]
    refine ⟨rfl, fun start => ?_⟩
    rw [decodeLast_two start hlt (by omega)]
    simp only [Except.ok.injEq, List.cons.injEq, and_true, ← UInt8.toNat_inj, UInt8.toNat_ofNat']
    omega
  | [a, b], _, _ =>
    have ha := a.toNat_lt
    have hb := b.toNat_lt
    have hlt : ∀ v ∈ [a.toNat / 4, a.toNat % 4 * 16 + b.toNat / 16, b.toNat % 16 * 4], v < 64 := by
      simp; omega
    have e : encode [a, b] = [a.toNat / 4, a.toNat % 4 * 16 + b.toNat / 16, b.toNat % 16 * 4].map
        symbol ++ List.replicate 1 pad := encode_two a b
    rw [e, Utf8.ofChars_append, ofChars_symbols hlt, ofChars_pads]
    refine ⟨rfl, fun start => ?_⟩
    rw [decodeLast_three start hlt (by omega)]
    simp only [Except.ok.injEq, List.cons.injEq, and_true, ← UInt8.toNat_inj, UInt8.toNat_ofNat']
    omega
  | [a, b, c], _, _ =>
    rw [encode_three, Utf8.ofChars_append, ofChars_symbols (sextets_lt a b c), ofChars_pads]
    refine ⟨rfl, fun start => ?_⟩
    rw [show sextets a b c = [_, _, _, _] from rfl, decodeLast_four start (sextets_lt a b c)]
    exact congrArg _ (decodeQuad_sextets a b c)

theorem filterMap_value?_codes {values : List Nat} (h : ∀ v ∈ values, v < 64) :
    (values.map code).filterMap value? = values := by
  induction values with
  | nil => rfl
  | cons v values ih =>
    rw [List.map_cons, List.filterMap_cons, value?_code v (h v (by simp)),
      ih fun w hw => h w (by simp [hw])]

theorem foreign?_codes {values : List Nat} (h : ∀ v ∈ values, v < 64) :
    foreign? 0 (values.map code) = none := by
  have none_foreign : (values.map code).findIdx? (fun b => (value? b).isNone) = none := by
    rw [List.findIdx?_eq_none_iff]
    intro x hx
    obtain ⟨v, hv, rfl⟩ := List.mem_map.1 hx
    rw [value?_code v (h v hv)]
    rfl
  rw [foreign?, none_foreign]

/-- Decoding takes a text of whole groups apart before its last group. -/
theorem decode_append {values : List Nat} (hv : ∀ v ∈ values, v < 64) {n : Nat}
    (hn : values.length = 4 * n) {last : Bytes} (hl : last.length = 4) {b : Bytes}
    (h : decodeLast (4 * n) last = .ok b) :
    decode (values.map code ++ last) = .ok ((pieces 4 values).flatMap decodeQuad ++ b) := by
  have hlen : (values.map code ++ last).length = 4 * n + 4 := by simp [hn, hl]
  have hne : values.map code ++ last ≠ [] := by
    intro e
    simp [e] at hlen
  have hstart : ((values.map code ++ last).length - 1) / 4 * 4 = 4 * n := by rw [hlen]; omega
  have hstray : strayEnd? (values.map code ++ last) = none := by
    unfold strayEnd?
    split
    · rw [if_neg (by omega)]
    · rfl
  have hfront : (values.map code ++ last).take (4 * n) = values.map code :=
    List.take_left' (by simp [hn])
  have hback : (values.map code ++ last).drop (4 * n) = last := List.drop_left' (by simp [hn])
  simp only [decode, if_neg hne, hstray, hstart, hfront, hback, foreign?_codes hv,
    filterMap_value?_codes hv, h]
  rfl

/-- An encoded text in two parts, the first of whole groups. -/
theorem encode_append {front rest : Bytes} {n : Nat} {values : List Nat} (hf : front.length = 3 * n)
    (h : encodeUnpadded (front ++ rest) = values.map symbol ++ encodeUnpadded rest) :
    encode (front ++ rest) = values.map symbol ++ encode rest := by
  have pads : padding (front ++ rest).length = padding rest.length := by
    simp only [padding, List.length_append, hf]
    congr 1
    omega
  rw [encode, encode, pads, h, List.append_assoc]

/-- An encoded text is read back. -/
theorem decode_encode (b : Bytes) : decode (Utf8.ofChars (encode b)) = .ok b := by
  by_cases hb : b = []
  · rw [hb]
    rfl
  have hpos : 0 < b.length := List.length_pos_iff.2 hb
  -- the last group is the one that may be short
  obtain ⟨n, hn, hn'⟩ : ∃ n, 3 * n < b.length ∧ b.length ≤ 3 * n + 3 :=
    ⟨(b.length - 1) / 3, by omega, by omega⟩
  have hfront : (b.take (3 * n)).length = 3 * n := by simp; omega
  obtain ⟨values, hlt, hlen, hdecode, hencode⟩ := front_groups n (b.take (3 * n)) hfront
  have hlast : 0 < (b.drop (3 * n)).length := by simp; omega
  have hlast' : (b.drop (3 * n)).length ≤ 3 := by simp; omega
  have split : encode b = values.map symbol ++ encode (b.drop (3 * n)) := by
    rw [← encode_append hfront (hencode _), List.take_append_drop]
  obtain ⟨hfour, hread⟩ := decodeLast_encode hlast hlast'
  rw [split, Utf8.ofChars_append, ofChars_symbols hlt, decode_append hlt hlen hfour (hread _), hdecode,
    List.take_append_drop]

theorem encode_ne_nil {b : Bytes} (h : b ≠ []) : encode b ≠ [] := by
  intro e
  have read := decode_encode b
  rw [e] at read
  exact h (Except.ok.inj read).symm

/-! ### What was decoded -/

theorem spells_of_value? : ∀ n < 256, ∀ v ∈ value? (UInt8.ofNat n),
    v < 64 ∧ code v = UInt8.ofNat n := by decide +kernel

/-- Only the symbol of a value has that value. -/
theorem eq_code_of_value? {b : UInt8} {v : Nat} (h : value? b = some v) : v < 64 ∧ b = code v := by
  have all := spells_of_value? b.toNat b.toNat_lt
  rw [UInt8.ofNat_toNat] at all
  obtain ⟨hv, hb⟩ := all v h
  exact ⟨hv, hb.symm⟩

/-- A text without a foreign byte is one of symbols. -/
theorem eq_map_code_of_foreign? {start : Nat} {front : Bytes} (h : foreign? start front = none) :
    (∀ v ∈ front.filterMap value?, v < 64) ∧ front = (front.filterMap value?).map code := by
  have inside : ∀ b ∈ front, (value? b).isNone = false := by
    unfold foreign? at h
    split at h
    · next i hi =>
      obtain ⟨hlt, -⟩ := List.findIdx?_eq_some_iff_getElem.1 hi
      simp [List.getElem?_eq_getElem hlt] at h
    · next hn =>
      intro b hb
      simpa using List.findIdx?_eq_none_iff.1 hn b hb
  clear h
  induction front with
  | nil => simp
  | cons b front ih =>
    obtain ⟨hb, hfront⟩ := List.forall_mem_cons.1 inside
    obtain ⟨v, hv⟩ : ∃ v, value? b = some v := by simpa [← Option.isSome_iff_exists] using hb
    obtain ⟨hlt, rfl⟩ := eq_code_of_value? hv
    obtain ⟨hrest, heq⟩ := ih hfront
    rw [List.filterMap_cons_some hv]
    exact ⟨List.forall_mem_cons.2 ⟨hlt, hrest⟩, by rw [List.map_cons, ← heq]⟩

/-- Four values are those of the three bytes they stand for. -/
theorem sextets_ofNat {a b c d : Nat} (h : ∀ v ∈ [a, b, c, d], v < 64) :
    sextets (UInt8.ofNat (a * 4 + b / 16)) (UInt8.ofNat (b % 16 * 16 + c / 4))
      (UInt8.ofNat (c % 4 * 64 + d)) = [a, b, c, d] := by
  simp only [List.forall_mem_cons, List.not_mem_nil, false_imp_iff, implies_true, and_true] at h
  simp only [sextets, UInt8.toNat_ofNat', List.cons.injEq, and_true]
  omega

/-- Whole groups of values are those of the bytes they stand for. -/
theorem encode_groups (n : Nat) (values : List Nat) (hn : values.length = 4 * n)
    (h : ∀ v ∈ values, v < 64) (rest : Bytes) :
    ((pieces 4 values).flatMap decodeQuad).length = 3 * n ∧
    encodeUnpadded ((pieces 4 values).flatMap decodeQuad ++ rest) =
      values.map symbol ++ encodeUnpadded rest := by
  induction n generalizing values with
  | zero =>
    rw [List.length_eq_zero_iff.1 hn]
    exact ⟨rfl, rfl⟩
  | succ n ih =>
    match values, hn with
    | a :: b :: c :: d :: values, hn =>
      obtain ⟨hgroup, hvalues⟩ := List.forall_mem_append.1 (show ∀ v ∈ [a, b, c, d] ++ values, v < 64 from h)
      have cut : pieces 4 (a :: b :: c :: d :: values) = [a, b, c, d] :: pieces 4 values :=
        @pieces_append _ 4 (by decide) [a, b, c, d] rfl values
      obtain ⟨hlen, hencode⟩ := ih values (by simp at hn; omega) hvalues
      rw [cut, List.flatMap_cons, decodeQuad]
      refine ⟨by simp [hlen]; omega, ?_⟩
      simp only [List.cons_append, List.nil_append, encodeUnpadded_three, hencode,
        sextets_ofNat hgroup, List.map_cons, List.map_nil]

/-- What the last group was read from: symbols, and padding behind them. -/
theorem eq_of_readLast {start place : Nat} {padAt : Option Nat} {done out : List Nat} {text : Bytes}
    (h : readLast start place padAt done text = .ok out) :
    ∃ values pads, out = done.reverse ++ values ∧ (∀ v ∈ values, v < 64) ∧
      text = values.map code ++ List.replicate pads 61 ∧ (padAt ≠ none → values = []) := by
  fun_induction readLast start place padAt done text with
  | case1 =>
    cases h
    exact ⟨[], 0, by simp⟩
  | case2 => cases h
  | case3 place padAt done rest hp ih =>
    obtain ⟨values, pads, rfl, hlt, rfl, hnone⟩ := ih h
    obtain rfl := hnone (by cases padAt <;> simp)
    exact ⟨[], pads + 1, rfl, hlt, rfl, fun _ => rfl⟩
  | case4 => cases h
  | case5 place done b rest hb v hv ih =>
    obtain ⟨values, pads, rfl, hlt, rfl, -⟩ := ih h
    obtain ⟨hv', rfl⟩ := eq_code_of_value? hv
    exact ⟨v :: values, pads, by simp, List.forall_mem_cons.2 ⟨hv', hlt⟩, rfl, by simp⟩
  | case6 => cases h

/-- The last group, wherever it stands, is the only text of the bytes it is read as. -/
theorem eq_encode_of_decodeLast {start : Nat} {text last : Bytes}
    (h : decodeLast start text = .ok last) : text = Utf8.ofChars (encode last) := by
  obtain ⟨values, hread, hlast⟩ := bind_eq_ok.1 h
  obtain ⟨values, pads, rfl, hlt, rfl, -⟩ := eq_of_readLast hread
  suffices written : encode last = values.map symbol ++ List.replicate pads pad by
    rw [written, Utf8.ofChars_append, ofChars_symbols hlt, ofChars_pads]
  split at hlast
  · cases hlast
  split at hlast
  · cases hlast
  next hmin hfour =>
  have hfour := Decidable.of_not_not hfour
  rw [List.length_append, List.length_map, List.length_replicate] at hfour
  match values, hmin, hfour, hlt, hlast with
  | [], hmin, _, _, _ => exact absurd Nat.two_pos hmin
  | [_], hmin, _, _, _ => exact absurd Nat.one_lt_two hmin
  | [a, b], _, hfour, hlt, hlast =>
    obtain rfl : pads = 2 := Nat.add_left_cancel (n := 2) hfour
    dsimp only at hlast
    split at hlast
    · next hb =>
      cases hlast
      have back : sextets (UInt8.ofNat (a * 4 + b / 16)) 0 0 = [a, b, 0, 0] := by
        simpa [hb] using sextets_ofNat (a := a) (b := b) (c := 0) (d := 0) (by simpa using hlt)
      rw [encode_one, back]
      rfl
    · cases hlast
  | [a, b, c], _, hfour, hlt, hlast =>
    obtain rfl : pads = 1 := Nat.add_left_cancel (n := 3) hfour
    dsimp only at hlast
    split at hlast
    · next hc =>
      cases hlast
      have back : sextets (UInt8.ofNat (a * 4 + b / 16)) (UInt8.ofNat (b % 16 * 16 + c / 4)) 0 =
          [a, b, c, 0] := by
        simpa [hc] using sextets_ofNat (a := a) (b := b) (c := c) (d := 0) (by simpa using hlt)
      rw [encode_two, back]
      rfl
    · cases hlast
  | [a, b, c, d], _, hfour, hlt, hlast =>
    obtain rfl : pads = 0 := Nat.add_left_cancel (n := 4) hfour
    dsimp only at hlast
    cases hlast
    rw [decodeQuad, encode_three, sextets_ofNat hlt]
  | _ :: _ :: _ :: _ :: _ :: rest, _, hfour, _, _ =>
    simp only [List.length_cons] at hfour
    omega

/-- What has to go well for a text to be decoded: its whole groups hold symbols only, and its last
group is one that is read. -/
theorem exists_of_decode {text data : Bytes} (hne : text ≠ []) (h : decode text = .ok data) :
    ∃ n last, 4 * n ≤ text.length ∧ foreign? 0 (text.take (4 * n)) = none ∧
      decodeLast (4 * n) (text.drop (4 * n)) = .ok last ∧
      data = (pieces 4 ((text.take (4 * n)).filterMap value?)).flatMap decodeQuad ++ last := by
  have start : (text.length - 1) / 4 * 4 = 4 * ((text.length - 1) / 4) := Nat.mul_comm _ _
  simp only [decode, if_neg hne, start] at h
  split at h
  · cases h
  split at h
  · cases h
  next hforeign =>
  obtain ⟨last, hlast, h⟩ := bind_eq_ok.1 h
  refine ⟨_, last, by omega, ?_, hlast, (pure_eq_ok.1 h).symm⟩
  exact Option.eq_none_iff_forall_ne_some.2 hforeign

/-- A text that is decoded is the encoding of the bytes it is decoded to. -/
theorem eq_encode_of_decode {text data : Bytes} (h : decode text = .ok data) :
    text = Utf8.ofChars (encode data) := by
  by_cases hne : text = []
  · subst hne
    cases h
    rfl
  obtain ⟨n, last, hn, hforeign, hlast, rfl⟩ := exists_of_decode hne h
  obtain ⟨hlt, hfront⟩ := eq_map_code_of_foreign? hforeign
  have hlen : ((text.take (4 * n)).filterMap value?).length = 4 * n := by
    have same := congrArg List.length hfront
    rw [List.length_map, List.length_take] at same
    omega
  obtain ⟨hbytes, hgroups⟩ := encode_groups n _ hlen hlt last
  rw [encode_append hbytes hgroups, Utf8.ofChars_append, ofChars_symbols hlt, ← hfront,
    ← eq_encode_of_decodeLast hlast, List.take_append_drop]

/-- Decoding takes the encoded texts and no others. -/
theorem decode_eq_ok_iff {text : List Char} {data : Bytes} :
    decode (Utf8.ofChars text) = .ok data ↔ text = encode data := by
  constructor
  · intro h
    exact Utf8.ofChars_inj.1 (eq_encode_of_decode h)
  · rintro rfl
    exact decode_encode data

/-! ### Without padding -/

/-- Four symbols for three bytes, rounded up. -/
theorem length_encodeUnpadded (b : Bytes) : (encodeUnpadded b).length = (4 * b.length + 2) / 3 := by
  match b with
  | [] => rfl
  | [x] => simp [encodeUnpadded, pieces, piecesOnto, encodeGroup]
  | [x, y] => simp [encodeUnpadded, pieces, piecesOnto, encodeGroup]
  | x :: y :: z :: rest =>
    rw [encodeUnpadded_three, List.length_append, List.length_map, length_encodeUnpadded rest]
    simp only [sextets, List.length_cons, List.length_nil]
    omega

/-- The length of an unpadded text tells how much it would be filled up. -/
theorem encodeUnpadded_inj {b c : Bytes} : encodeUnpadded b = encodeUnpadded c ↔ b = c := by
  constructor
  · intro h
    have symbols := congrArg List.length h
    rw [length_encodeUnpadded, length_encodeUnpadded] at symbols
    have length : b.length = c.length := by omega
    have padded : encode b = encode c := by rw [encode, encode, h, length]
    have read := decode_encode b
    rw [padded, decode_encode] at read
    exact (Except.ok.inj read).symm
  · rintro rfl
    rfl

end SshKeyring.Base64
