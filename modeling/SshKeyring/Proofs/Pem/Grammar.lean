import Mathlib.Data.List.Basic
import Mathlib.Data.List.TakeWhile
import SshKeyring.Pem
import SshKeyring.Proofs.Text.Base64

/-! The texts that are read as a PEM block, by their rows: a boundary at either end, of one label,
and between them header rows, as many as come first, and rows whose characters together are the
Base64 of some data, with nothing but white space around it. A row of header form is cut at its
colon in one way only, and data has one Base64 text, so the rows say which block it is. -/

namespace SshKeyring.PemBlock

/-! ### Boundaries -/

/-- What a boundary row can carry as its label. -/
def IsLabel (label : Row) : Prop := label ≠ [] ∧ '-' ∉ label

instance (label : Row) : Decidable (IsLabel label) :=
  inferInstanceAs (Decidable (label ≠ [] ∧ '-' ∉ label))

theorem label?_eq_some_iff {mark row label : Row} :
    label? mark row = some label ↔ IsLabel label ∧ row = mark ++ label ++ dashes := by
  simp only [label?, Option.bind_eq_bind, Option.bind_eq_some_iff,
    List.isPrefixOf?_eq_some_iff_append_eq, List.isSuffixOf?_eq_some_iff_append_eq]
  constructor
  · rintro ⟨_, rfl, front, rfl, h⟩
    split at h
    · cases h
    · next hl =>
      cases h
      exact ⟨not_or.1 hl, (List.append_assoc ..).symm⟩
  · rintro ⟨hl, rfl⟩
    exact ⟨_, (List.append_assoc ..).symm, _, rfl, if_neg (not_or.2 hl)⟩

/-- A text is read from the rows between the first and the last, if there are any and those two are
boundaries of one label. -/
theorem parse_eq_ok_iff_of_rows {text : Bytes} {first last : Row} {inner : List Row}
    (h : rows (latin1 text) = first :: (inner ++ [last])) (hi : inner ≠ []) {p : PemBlock} :
    parse text = .ok p ↔ ∃ label, label? beginMark first = some label ∧
      label? endMark last = some label ∧ ofRows label inner = .ok p := by
  obtain ⟨second, rest, rfl⟩ := List.exists_cons_of_ne_nil hi
  obtain ⟨third, rest', e⟩ := List.exists_cons_of_ne_nil (show rest ++ [last] ≠ [] by simp)
  have hdrop : (second :: third :: rest').dropLast = second :: rest := by
    rw [← e, ← List.cons_append, List.dropLast_concat]
  have hget : (third :: rest').getLastD third = last := by
    rw [← e, List.getLastD_concat]
  rw [List.cons_append, e] at h
  simp only [parse, h, hdrop, hget]
  cases label? beginMark first with
  | none => exact iff_of_false (by rintro ⟨⟩) (by rintro ⟨_, ⟨⟩, _⟩)
  | some begins =>
    cases label? endMark last with
    | none => exact iff_of_false (by rintro ⟨⟩) (by rintro ⟨_, _, ⟨⟩, _⟩)
    | some ends =>
      by_cases he : begins = ends
      · subst he
        simp
      · have apart : ¬ ∃ label, some begins = some label ∧ some ends = some label ∧
            ofRows label (second :: rest) = .ok p := by
          rintro ⟨_, ⟨⟩, ⟨⟩, -⟩
          exact he rfl
        rw [iff_false_right apart]
        simp only [ne_eq, he, not_false_eq_true, if_true]
        rintro ⟨⟩

/-- Fewer than three rows are not read. -/
theorem three_le_of_parse {text : Bytes} {p : PemBlock} (h : parse text = .ok p) :
    3 ≤ (rows (latin1 text)).length := by
  unfold parse at h
  split at h
  · next hrows =>
    rw [hrows]
    simp
  · cases h

/-! ### Headers -/

/-- What a header row can carry as its name and its value. -/
def IsHeader (h : String × String) : Prop :=
  h.1 ≠ "" ∧ (∀ c ∈ h.1.toList, isNameChar c = true) ∧ h.2 ≠ ""

def headerRow (h : String × String) : Row := h.1.toList ++ ": ".toList ++ h.2.toList

theorem colon_mem_headerRow (h : String × String) : ':' ∈ headerRow h := by
  simp [headerRow]

theorem header?_headerRow {h : String × String} (hh : IsHeader h) :
    header? (headerRow h) = some h := by
  obtain ⟨name, value⟩ := h
  obtain ⟨hname, hchars, hvalue⟩ := hh
  obtain ⟨n, ns, hn⟩ := List.exists_cons_of_ne_nil (mt String.toList_eq_nil_iff.1 hname)
  obtain ⟨v, vs, hv⟩ := List.exists_cons_of_ne_nil (mt String.toList_eq_nil_iff.1 hvalue)
  have row : headerRow (name, value) = name.toList ++ ':' :: ' ' :: value.toList := by
    simp [headerRow]
  have colon : isNameChar ':' = false := by decide
  have front : (headerRow (name, value)).takeWhile isNameChar = name.toList := by
    rw [row, List.takeWhile_append_of_pos hchars, List.takeWhile_cons_of_neg (by simp [colon]),
      List.append_nil]
  have back : (headerRow (name, value)).dropWhile isNameChar = ':' :: ' ' :: value.toList := by
    rw [row, List.dropWhile_append_of_pos hchars, List.dropWhile_cons_of_neg (by simp [colon])]
  rw [hn] at front
  rw [hv] at back
  simp only [header?, front, back]
  rw [← hn, ← hv, String.ofList_toList, String.ofList_toList]

theorem header?_eq_some_iff {row : Row} {h : String × String} :
    header? row = some h ↔ IsHeader h ∧ row = headerRow h := by
  constructor
  · intro hr
    have cut := List.takeWhile_append_dropWhile (p := isNameChar) (l := row)
    have chars : ∀ c ∈ row.takeWhile isNameChar, isNameChar c = true := fun c =>
      List.mem_takeWhile_imp
    unfold header? at hr
    split at hr
    · next n ns v vs hn hv =>
      cases hr
      rw [hn] at chars
      refine ⟨⟨by simp, by simpa using chars, by simp⟩, ?_⟩
      rw [← cut, hn, hv]
      simp [headerRow]
    · cases hr
  · rintro ⟨hh, rfl⟩
    exact header?_headerRow hh

example : header? "DEK-Info: a: b".toList = some ("DEK-Info", "a: b") := by decide +kernel

theorem header?_eq_none_iff {row : Row} :
    header? row = none ↔ ∀ h, IsHeader h → row ≠ headerRow h := by
  simp only [Option.eq_none_iff_forall_ne_some, ne_eq, header?_eq_some_iff, not_and]

/-- Header rows are told from the rows behind them, which do not begin with one. -/
theorem splitHeaders_append {headers : List (String × String)} (hh : ∀ h ∈ headers, IsHeader h)
    {body : List Row} (hb : ∀ row ∈ body.head?, header? row = none)
    (done : List (String × String)) :
    splitHeaders done (headers.map headerRow ++ body) = (done.reverse ++ headers, body) := by
  induction headers generalizing done with
  | nil =>
    cases body with
    | nil => simp [splitHeaders]
    | cons row rest => simp [splitHeaders, hb row (by simp)]
  | cons h headers ih =>
    rw [List.map_cons, List.cons_append, splitHeaders, header?_headerRow (hh h (by simp))]
    simpa using ih (fun g hg => hh g (by simp [hg])) (h :: done)

theorem exists_of_splitHeaders {all body : List Row} {done out : List (String × String)}
    (h : splitHeaders done all = (out, body)) :
    ∃ headers, out = done.reverse ++ headers ∧ all = headers.map headerRow ++ body ∧
      (∀ h ∈ headers, IsHeader h) ∧ ∀ row ∈ body.head?, header? row = none := by
  fun_induction splitHeaders done all with
  | case1 done =>
    cases h
    exact ⟨[], by simp⟩
  | case2 done row rest first hfirst ih =>
    obtain ⟨headers, rfl, rfl, hh, hb⟩ := ih h
    obtain ⟨his, rfl⟩ := header?_eq_some_iff.1 hfirst
    exact ⟨first :: headers, by simp, rfl, List.forall_mem_cons.2 ⟨his, hh⟩, hb⟩
  | case3 done row rest hnone =>
    cases h
    exact ⟨[], by simp [hnone]⟩

/-- The value of a header is that of the last row of its name. -/
theorem header_eq_some_iff {p : PemBlock} {name value : String} :
    p.header name = some value ↔ ∃ before after,
      p.headers = before ++ (name, value) :: after ∧ ∀ h ∈ after, h.1 ≠ name := by
  simp only [header, Option.map_eq_some_iff, List.find?_eq_some_iff_append]
  constructor
  · rintro ⟨⟨_, _⟩, ⟨hname, front, back, hall, hfront⟩, rfl⟩
    obtain rfl := of_decide_eq_true hname
    refine ⟨back.reverse, front.reverse, ?_, fun h hh => ?_⟩
    · rw [← List.reverse_reverse p.headers, hall]
      simp
    · simpa using hfront h (List.mem_reverse.1 hh)
  · rintro ⟨before, after, hall, hafter⟩
    refine ⟨(name, value), ⟨decide_eq_true rfl, after.reverse, before.reverse, ?_, fun h hh => ?_⟩,
      rfl⟩
    · rw [hall]
      simp
    · simpa using hafter h (List.mem_reverse.1 hh)

/-! ### Rows of the body -/

theorem trim_eq_self {text : List Char} (h : ∀ c ∈ text, isBlank c = false) : trim text = text := by
  have keep {l : List Char} (hl : ∀ c ∈ l, isBlank c = false) : l.dropWhile isBlank = l := by
    cases l with
    | nil => rfl
    | cons c l => rw [List.dropWhile_cons_of_neg (by simp [hl c (by simp)])]
  rw [trim, keep h, keep (by simpa using h), List.reverse_reverse]

theorem trim_encode (data : Bytes) : trim (Base64.encode data) = Base64.encode data :=
  trim_eq_self (Base64.forall_mem_encode (by decide) (by decide) data)

theorem decodeBody_eq_ok_iff {body : List Row} {data : Bytes} :
    decodeBody body = .ok data ↔ trim body.flatten = Base64.encode data ∧ data ≠ [] := by
  simp only [decodeBody, bind_eq_ok, mapError_eq_ok, ← Base64.decode_eq_ok_iff]
  constructor
  · rintro ⟨read, hread, h⟩
    split at h
    · cases h
    · next hne =>
      obtain rfl := pure_eq_ok.1 h
      exact ⟨hread, hne⟩
  · rintro ⟨hread, hne⟩
    exact ⟨data, hread, if_neg hne⟩

/-- The rows between the boundaries of a block: those of its headers, and others that do not begin
with a header row and hold the data. -/
theorem ofRows_eq_ok_iff {label : Row} {inner : List Row} {p : PemBlock} :
    ofRows label inner = .ok p ↔ ∃ body, p.label = String.ofList label ∧
      inner = p.headers.map headerRow ++ body ∧ (∀ h ∈ p.headers, IsHeader h) ∧
      (∀ row ∈ body.head?, header? row = none) ∧
      trim body.flatten = Base64.encode p.data ∧ p.data ≠ [] := by
  constructor
  · intro h
    cases hsplit : splitHeaders [] inner with
    | mk out body =>
      simp only [ofRows, hsplit, bind_eq_ok, pure_eq_ok, decodeBody_eq_ok_iff] at h
      obtain ⟨data, hdata, rfl⟩ := h
      obtain ⟨headers, rfl, rfl, hh, hb⟩ := exists_of_splitHeaders hsplit
      exact ⟨body, rfl, rfl, hh, hb, hdata⟩
  · rintro ⟨body, hlabel, rfl, hh, hb, hdata⟩
    rw [ofRows, splitHeaders_append hh hb]
    refine bind_eq_ok.2 ⟨p.data, decodeBody_eq_ok_iff.2 hdata, ?_⟩
    rw [← hlabel]
    rfl

/-! ### Whole texts -/

def boundary (p : PemBlock) (mark : Row) : Row := mark ++ p.label.toList ++ dashes

/-- The rows that spell a block: its boundaries, and between them a row for each header, in their
order, and the rows `body`, which come after the last header row and hold the data. -/
structure Spelled (p : PemBlock) (body all : List Row) : Prop where
  rows_eq : all =
    p.boundary beginMark :: (p.headers.map headerRow ++ body ++ [p.boundary endMark])
  isLabel : IsLabel p.label.toList
  isHeader : ∀ h ∈ p.headers, IsHeader h
  headers_end : ∀ row ∈ body.head?, ∀ h, IsHeader h → row ≠ headerRow h
  text_eq : trim body.flatten = Base64.encode p.data
  data_ne_nil : p.data ≠ []

/-- Without a row for the data there would be none. -/
theorem Spelled.body_ne_nil {p : PemBlock} {body all : List Row} (h : p.Spelled body all) :
    body ≠ [] := by
  rintro rfl
  exact Base64.encode_ne_nil h.data_ne_nil h.text_eq.symm

theorem Spelled.parse_eq {p : PemBlock} {body : List Row} {text : Bytes}
    (h : p.Spelled body (rows (latin1 text))) : parse text = .ok p := by
  have inner := List.append_ne_nil_of_right_ne_nil (p.headers.map headerRow) h.body_ne_nil
  refine (parse_eq_ok_iff_of_rows h.rows_eq inner).2 ⟨p.label.toList,
    label?_eq_some_iff.2 ⟨h.isLabel, rfl⟩, label?_eq_some_iff.2 ⟨h.isLabel, rfl⟩,
    ofRows_eq_ok_iff.2 ⟨body, ?_, rfl, h.isHeader, ?_, h.text_eq, h.data_ne_nil⟩⟩
  · rw [String.ofList_toList]
  · exact fun row hr => header?_eq_none_iff.2 (h.headers_end row hr)

theorem exists_spelled_of_parse {p : PemBlock} {text : Bytes} (h : parse text = .ok p) :
    ∃ body, p.Spelled body (rows (latin1 text)) := by
  have three := three_le_of_parse h
  -- the first and the last of the rows, and those between them
  obtain ⟨first, rest, hrows⟩ := List.exists_cons_of_length_pos (Nat.lt_of_lt_of_le (by decide) three)
  have hrest : rest ≠ [] := by
    rintro rfl
    simp [hrows] at three
  obtain ⟨inner, last, rfl⟩ := List.eq_nil_or_concat rest |>.resolve_left hrest
  rw [List.concat_eq_append] at hrows
  have hinner : inner ≠ [] := by
    rintro rfl
    simp [hrows] at three
  obtain ⟨label, hfirst, hlast, hinside⟩ := (parse_eq_ok_iff_of_rows hrows hinner).1 h
  obtain ⟨hl, rfl⟩ := label?_eq_some_iff.1 hfirst
  obtain ⟨-, rfl⟩ := label?_eq_some_iff.1 hlast
  obtain ⟨body, hlabel, rfl, hh, hb, htext, hdata⟩ := ofRows_eq_ok_iff.1 hinside
  have chars : p.label.toList = label := by rw [hlabel, String.toList_ofList]
  refine ⟨body, ?_, chars ▸ hl, hh, fun row hr => header?_eq_none_iff.1 (hb row hr), htext,
    hdata⟩
  rw [hrows, boundary, boundary, chars]

/-- A text is read as a block if and only if it has three rows at least and they spell that block;
and of its headers with one name the last counts. -/
theorem parse_eq_ok_iff (text : Bytes) (p : PemBlock) :
    (parse text = .ok p ↔
      3 ≤ (rows (latin1 text)).length ∧ ∃ body, p.Spelled body (rows (latin1 text))) ∧
      ∀ name value, p.header name = some value ↔ ∃ before after,
        p.headers = before ++ (name, value) :: after ∧ ∀ h ∈ after, h.1 ≠ name := by
  refine ⟨⟨fun h => ⟨three_le_of_parse h, exists_spelled_of_parse h⟩, ?_⟩,
    fun name value => header_eq_some_iff⟩
  rintro ⟨-, body, h⟩
  exact h.parse_eq

end SshKeyring.PemBlock
