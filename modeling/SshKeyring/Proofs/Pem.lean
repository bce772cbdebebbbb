import Mathlib.Data.Bool.AllAny
import SshKeyring.Proofs.Pem.Grammar

/-! Writing a PEM block and reading it again. A line break anywhere in a text separates the rows
before it from those after it, so the rows of a written block are the ones it was written from,
however they are set apart; its header rows come first, none of its Base64 rows passes for another
one, and what these hold together is read back. -/

namespace SshKeyring.PemBlock

/-! ### Rows -/

theorem rows_append_break (front rest : List Char) {c : Char} (hc : isLineBreak c = true) :
    rows (front ++ c :: rest) = rows front ++ rows rest := by
  rw [rows, List.splitOnP_append_cons front rest hc, List.filter_append, rows, rows]

/-- A run of line breaks, perhaps an empty one. -/
def IsBreaks (run : List Char) : Prop := ∀ c ∈ run, isLineBreak c = true

instance (run : List Char) : Decidable (IsBreaks run) :=
  decidable_of_iff (run.all isLineBreak = true) List.all_eq_true

theorem rows_breaks_append {run : List Char} (h : IsBreaks run) (rest : List Char) :
    rows (run ++ rest) = rows rest := by
  induction run with
  | nil => rfl
  | cons c run ih =>
    rw [← ih fun b hb => h b (List.mem_cons_of_mem c hb)]
    exact rows_append_break [] _ (h c List.mem_cons_self)

theorem rows_append_breaks {run : List Char} (h : IsBreaks run) (front : List Char) :
    rows (front ++ run) = rows front := by
  cases run with
  | nil => rw [List.append_nil]
  | cons c run =>
    have none : rows run = [] := by
      rw [← List.append_nil run, rows_breaks_append fun b hb => h b (List.mem_cons_of_mem c hb)]
      rfl
    rw [rows_append_break front run (h c List.mem_cons_self), none, List.append_nil]

/-- The same text, but with runs of line breaks in the place of its line breaks. -/
inductive Rebroken : List Char → List Char → Prop
  | nil : Rebroken [] []
  | keep {c : Char} {text again : List Char} :
      isLineBreak c = false → Rebroken text again → Rebroken (c :: text) (c :: again)
  | run {c : Char} {run text again : List Char} :
      isLineBreak c = true → run ≠ [] → IsBreaks run → Rebroken text again →
        Rebroken (c :: text) (run ++ again)

theorem Rebroken.rows_append {text again : List Char} (h : Rebroken text again)
    (front : List Char) : rows (front ++ again) = rows (front ++ text) := by
  induction h generalizing front with
  | nil => rfl
  | @keep c text again _ _ ih =>
    rw [List.append_cons front c again, ih, ← List.append_cons]
  | @run c run text again hc hrun hbreaks _ ih =>
    obtain ⟨b, rest, rfl⟩ := List.exists_cons_of_ne_nil hrun
    have behind : rows (rest ++ again) = rows text := by
      rw [rows_breaks_append fun d hd => hbreaks d (List.mem_cons_of_mem b hd)]
      exact ih []
    rw [List.cons_append, rows_append_break front _ (hbreaks b List.mem_cons_self), behind,
      rows_append_break front text hc]

theorem Rebroken.rows_eq {text again : List Char} (h : Rebroken text again) :
    rows again = rows text :=
  h.rows_append []

/-- What holds of line breaks and of every character of a text holds of every character of the
text with other line breaks. -/
theorem Rebroken.forall_mem {P : Char → Prop} (hbreak : ∀ c, isLineBreak c = true → P c)
    {text again : List Char} (h : Rebroken text again) (htext : ∀ c ∈ text, P c) :
    ∀ c ∈ again, P c := by
  induction h with
  | nil => exact htext
  | keep _ _ ih =>
    obtain ⟨hc, htext⟩ := List.forall_mem_cons.1 htext
    exact List.forall_mem_cons.2 ⟨hc, ih htext⟩
  | run _ _ hbreaks _ ih =>
    obtain ⟨-, htext⟩ := List.forall_mem_cons.1 htext
    exact List.forall_mem_append.2 ⟨fun c hc => hbreak c (hbreaks c hc), ih htext⟩

/-- One run of line breaks in the place of every line break. -/
theorem rebroken_flatMap {run : List Char} (hrun : run ≠ []) (h : IsBreaks run)
    (text : List Char) : Rebroken text (text.flatMap fun c => if isLineBreak c then run else [c]) := by
  induction text with
  | nil => exact .nil
  | cons c text ih =>
    rw [List.flatMap_cons]
    by_cases hc : isLineBreak c = true
    · rw [if_pos hc]
      exact .run hc hrun h ih
    · rw [if_neg hc]
      exact .keep (Bool.eq_false_iff.2 hc) ih

/-- A row: not empty, and without a line break. -/
def IsRow (row : Row) : Prop := row ≠ [] ∧ ∀ c ∈ row, isLineBreak c = false

theorem rows_of_isRow {row : Row} (h : IsRow row) : rows row = [row] := by
  rw [rows, List.splitOnP_eq_singleton h.2]
  simp [h.1]

/-- A text with the given rows: each is followed by a line break, which the last may lack, and
there may be more line breaks everywhere between them. -/
inductive Lines : List Row → List Char → Prop
  | nil : Lines [] []
  | skip {c : Char} {all : List Row} {rest : List Char} :
      isLineBreak c = true → Lines all rest → Lines all (c :: rest)
  | last {row : Row} : IsRow row → Lines [row] row
  | row {row : Row} {c : Char} {all : List Row} {rest : List Char} :
      IsRow row → isLineBreak c = true → Lines all rest → Lines (row :: all) (row ++ c :: rest)

theorem Lines.rows_eq {all : List Row} {text : List Char} (h : Lines all text) :
    rows text = all := by
  induction h with
  | nil => rfl
  | skip hc _ ih =>
    rw [← ih]
    exact rows_append_break [] _ hc
  | last hr => exact rows_of_isRow hr
  | row hr hc _ ih => rw [rows_append_break _ _ hc, rows_of_isRow hr, ih, List.singleton_append]

/-- A text written row by row. -/
theorem lines_flatMap {all : List Row} (h : ∀ row ∈ all, IsRow row) :
    Lines all (all.flatMap (· ++ ['\n'])) := by
  induction all with
  | nil => exact .nil
  | cons row all ih =>
    have first : (row :: all).flatMap (· ++ ['\n']) = row ++ '\n' :: all.flatMap (· ++ ['\n']) := by
      simp
    rw [first]
    exact .row (h row (by simp)) rfl (ih fun r hr => h r (by simp [hr]))

theorem latin1_ofChars {text : List Char} (h : ∀ c ∈ text, c.toNat < 0x80) :
    latin1 (Utf8.ofChars text) = text := by
  rw [Utf8.ofChars_of_ascii h, latin1, List.map_map]
  refine (List.map_congr_left fun c hc => ?_).trans (List.map_id text)
  exact Utf8.ofUInt8_ofNat_of_ascii (h c hc)

/-! ### Rows of the body -/

theorem not_mem_of_flatten {body : List Row} {data : Bytes}
    (h : body.flatten = Base64.encode data) : ∀ row ∈ body, ':' ∉ row := fun row hr hc =>
  Base64.forall_mem_encode (P := (· ≠ ':')) (by decide) (by decide) data ':'
    (h ▸ List.mem_flatten_of_mem hr hc) rfl

/-! ### Whole blocks -/

/-- A text in which a block is written down: its boundaries, around a row for each header and any
rows that hold its data in Base64 together. -/
def Written (p : PemBlock) (text : Bytes) : Prop :=
  ∃ body : List Row, body.flatten = Base64.encode p.data ∧
    Lines (p.boundary beginMark :: (p.headers.map headerRow ++ body ++ [p.boundary endMark]))
      (latin1 text)

/-- A block is read off every text in which it is written down. -/
theorem Written.parse_eq {p : PemBlock} {text : Bytes} (h : p.Written text)
    (hl : IsLabel p.label.toList) (hh : ∀ h ∈ p.headers, IsHeader h) (hd : p.data ≠ []) :
    parse text = .ok p := by
  obtain ⟨body, hbody, hlines⟩ := h
  have spelled : p.Spelled body (rows (latin1 text)) := by
    refine ⟨hlines.rows_eq, hl, hh, ?_, ?_, hd⟩
    · rintro row hr h - rfl
      exact not_mem_of_flatten hbody _ (List.mem_of_mem_head? hr) (colon_mem_headerRow h)
    · rw [hbody, trim_encode]
  exact spelled.parse_eq

/-- A character of seven bits that does not end a row. -/
def IsPlain (c : Char) : Prop := isLineBreak c = false ∧ c.toNat < 0x80

instance (c : Char) : Decidable (IsPlain c) := inferInstanceAs (Decidable (_ ∧ _))

/-- The rows of a block, its body in rows of `width` symbols but no fewer than four. -/
def writtenRows (p : PemBlock) (width : Nat) : List Row :=
  p.boundary beginMark :: (p.headers.map headerRow ++
    pieces (max width 4) (Base64.encode p.data) ++ [p.boundary endMark])

theorem isPlain_of_mem_boundary {p : PemBlock} (hl : ∀ c ∈ p.label.toList, IsPlain c) {mark : Row}
    (hmark : ∀ c ∈ mark, IsPlain c) : ∀ c ∈ p.boundary mark, IsPlain c := by
  have hdashes : ∀ c ∈ dashes, IsPlain c := List.all_iff_forall_prop.1 (by decide)
  intro c hc
  simp only [boundary, List.mem_append] at hc
  rcases hc with (hc | hc) | hc
  · exact hmark c hc
  · exact hl c hc
  · exact hdashes c hc

theorem boundary_ne_nil (p : PemBlock) (mark : Row) : p.boundary mark ≠ [] :=
  List.append_ne_nil_of_right_ne_nil _ (by decide)

theorem isPlain_of_mem_piece {width : Nat} {data : Bytes} {row : Row}
    (hr : row ∈ pieces (max width 4) (Base64.encode data)) : ∀ c ∈ row, IsPlain c :=
  Base64.forall_mem_pieces_encode (by decide) (by decide) (by omega) hr

theorem plain_of_mem_writtenRows {p : PemBlock} (hl : ∀ c ∈ p.label.toList, IsPlain c)
    (hh : ∀ h ∈ p.headers, ∀ c ∈ headerRow h, IsPlain c) {width : Nat} {row : Row}
    (hr : row ∈ p.writtenRows width) : row ≠ [] ∧ ∀ c ∈ row, IsPlain c := by
  have hbegin : ∀ c ∈ beginMark, IsPlain c := List.all_iff_forall_prop.1 (by decide)
  have hend : ∀ c ∈ endMark, IsPlain c := List.all_iff_forall_prop.1 (by decide)
  have hw : 0 < max width 4 := by omega
  simp only [writtenRows, List.mem_cons, List.mem_append, List.mem_map, List.not_mem_nil,
    or_false] at hr
  rcases hr with rfl | (⟨h, hm, rfl⟩ | hr) | rfl
  · exact ⟨p.boundary_ne_nil _, isPlain_of_mem_boundary hl hbegin⟩
  · exact ⟨by simp [headerRow], hh h hm⟩
  · exact ⟨ne_nil_of_mem_pieces hw hr, isPlain_of_mem_piece hr⟩
  · exact ⟨p.boundary_ne_nil _, isPlain_of_mem_boundary hl hend⟩

/-- Rows of plain characters make a text of seven bits. -/
theorem toNat_lt_of_mem_lines {all : List Row} (h : ∀ row ∈ all, ∀ c ∈ row, IsPlain c) :
    ∀ c ∈ all.flatMap (· ++ ['\n']), c.toNat < 0x80 := by
  intro c hc
  obtain ⟨row, hr, hc⟩ := List.mem_flatMap.1 hc
  rcases List.mem_append.1 hc with hc | hc
  · exact (h row hr c hc).2
  · rw [List.mem_singleton.1 hc]
    decide

/-- A block with plain characters in its label and its headers can be written down. -/
theorem written_rows {p : PemBlock} (hl : ∀ c ∈ p.label.toList, IsPlain c)
    (hh : ∀ h ∈ p.headers, ∀ c ∈ headerRow h, IsPlain c) (width : Nat) :
    p.Written (Utf8.ofChars ((p.writtenRows width).flatMap (· ++ ['\n']))) := by
  have plain : ∀ row ∈ p.writtenRows width, row ≠ [] ∧ ∀ c ∈ row, IsPlain c := fun row hr =>
    plain_of_mem_writtenRows hl hh hr
  have hw : 0 < max width 4 := by omega
  refine ⟨_, flatten_pieces hw _, ?_⟩
  rw [latin1_ofChars (toNat_lt_of_mem_lines fun row hr => (plain row hr).2)]
  exact lines_flatMap fun row hr => ⟨(plain row hr).1, fun c hc => ((plain row hr).2 c hc).1⟩

theorem toList_encode (p : PemBlock) (width : Nat) : (p.encode width).toList =
    (writtenRows { label := p.label, data := p.data } width).flatMap (· ++ ['\n']) := by
  rw [encode, String.toList_ofList]
  rfl

/-- What `encode` writes is the block without its headers. -/
theorem written_encode {p : PemBlock} (hl : ∀ c ∈ p.label.toList, IsPlain c) (width : Nat) :
    Written { label := p.label, data := p.data } (Utf8.encode (p.encode width)) := by
  rw [Utf8.encode_eq_ofChars, toList_encode]
  exact written_rows (p := { label := p.label, data := p.data }) hl (by simp) width

/-! ### Other line breaks -/

/-- All that matters of a text is its rows. -/
theorem parse_congr {a b : Bytes} (h : rows (latin1 a) = rows (latin1 b)) : parse a = parse b := by
  unfold parse
  rw [h]

theorem toNat_lt_of_isLineBreak {c : Char} (h : isLineBreak c = true) : c.toNat < 0x80 := by
  simp only [isLineBreak, Bool.or_eq_true, decide_eq_true_eq] at h
  rcases h with rfl | rfl
  · decide
  · decide

theorem latin1_encode {s : String} (h : ∀ c ∈ s.toList, c.toNat < 0x80) :
    latin1 (Utf8.encode s) = s.toList := by
  rw [Utf8.encode_eq_ofChars, latin1_ofChars h]

theorem toNat_lt_of_mem_encode {p : PemBlock} (hl : ∀ c ∈ p.label.toList, IsPlain c) (width : Nat) :
    ∀ c ∈ (p.encode width).toList, c.toNat < 0x80 := by
  have plain : ∀ row ∈ writtenRows { label := p.label, data := p.data } width,
      ∀ c ∈ row, IsPlain c := fun row hr =>
    (plain_of_mem_writtenRows (p := { label := p.label, data := p.data }) hl (by simp) hr).2
  rw [toList_encode]
  exact toNat_lt_of_mem_lines plain

/-- The text of a block with other line breaks and more of them around it has the same rows. -/
theorem rows_encode_rebroken {p : PemBlock} (hl : ∀ c ∈ p.label.toList, IsPlain c) {width : Nat}
    {front text back : String} (hfront : IsBreaks front.toList) (hback : IsBreaks back.toList)
    (h : Rebroken (p.encode width).toList text.toList) :
    rows (latin1 (Utf8.encode (front ++ text ++ back))) =
      rows (latin1 (Utf8.encode (p.encode width))) := by
  have ascii := toNat_lt_of_mem_encode hl width
  have again : ∀ c ∈ (front ++ text ++ back).toList, c.toNat < 0x80 := by
    rw [String.toList_append, String.toList_append, List.forall_mem_append, List.forall_mem_append]
    exact ⟨⟨fun c hc => toNat_lt_of_isLineBreak (hfront c hc),
      h.forall_mem (fun _ => toNat_lt_of_isLineBreak) ascii⟩,
      fun c hc => toNat_lt_of_isLineBreak (hback c hc)⟩
  rw [latin1_encode again, latin1_encode ascii, String.toList_append, String.toList_append,
    rows_append_breaks hback, rows_breaks_append hfront, h.rows_eq]

/-- A block of a label in seven bits and of some data is read back from its text, in rows of any
width. It is also read from that text with any runs of line breaks in the place of those between
its rows, and with more of them in front and behind. -/
theorem parse_encode (label : String) (data : Bytes) (width : Nat) (hl : IsLabel label.toList)
    (hplain : ∀ c ∈ label.toList, IsPlain c) (hd : data ≠ []) :
    parse (Utf8.encode (encode { label, data } width)) = .ok { label, headers := [], data } ∧
      ∀ front text back : String, IsBreaks front.toList → IsBreaks back.toList →
        Rebroken (encode { label, data } width).toList text.toList →
          parse (Utf8.encode (front ++ text ++ back)) = .ok { label, headers := [], data } := by
  have back := (written_encode (p := { label, data }) hplain width).parse_eq hl (by simp) hd
  refine ⟨back, fun front text behind hfront hbehind h => ?_⟩
  rw [parse_congr (rows_encode_rebroken (p := { label, data }) hplain hfront hbehind h), back]

/-- Four bytes in two rows. -/
theorem parse_crlf :
    parse (Utf8.encode "-----BEGIN A B-----\nAQID\nBA==\n-----END A B-----\n") =
        .ok { label := "A B", data := [1, 2, 3, 4] } ∧
      parse (Utf8.encode
        "\r\n-----BEGIN A B-----\r\nAQID\r\nBA==\r\n-----END A B-----\r\n\n\n") =
        .ok { label := "A B", data := [1, 2, 3, 4] } := by
  have text : encode { label := "A B", data := [1, 2, 3, 4] } 0 =
      "-----BEGIN A B-----\nAQID\nBA==\n-----END A B-----\n" := by
    rw [← String.toList_inj, toList_encode]
    decide +kernel
  have crlf : "-----BEGIN A B-----\r\nAQID\r\nBA==\r\n-----END A B-----\r\n".toList =
      "-----BEGIN A B-----\nAQID\nBA==\n-----END A B-----\n".toList.flatMap
        fun c => if isLineBreak c then ['\r', '\n'] else [c] := by decide +kernel
  have plain : ∀ c ∈ "A B".toList, IsPlain c := List.all_iff_forall_prop.1 (by decide)
  obtain ⟨once, again⟩ := parse_encode "A B" [1, 2, 3, 4] 0 (by decide) plain (by decide)
  rw [text] at once again
  refine ⟨once, again "\r\n" "-----BEGIN A B-----\r\nAQID\r\nBA==\r\n-----END A B-----\r\n"
    "\n\n" (by decide) (by decide) ?_⟩
  rw [crlf]
  exact rebroken_flatMap (by decide) (by decide) _

end SshKeyring.PemBlock
