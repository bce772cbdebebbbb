import SshKeyring.Proofs.Key.Grammar
import SshKeyring.Proofs.Key.Identity
import SshKeyring.Proofs.Text.Base64

/-! The line by which a public key goes into a list of keys: the type's name, the blob in Base64
and, unless it is empty, a comment. Only the comment can have spaces, so the line is cut into its
fields again at its first two, and the second field gives the key back. Only the comment can have
line breaks too. A key that was read from a container has its comment from there, byte by byte where
the bytes are ASCII, so what it gives for a line is a single one just if the container's comment has
neither a carriage return nor a line feed. -/

namespace SshKeyring

open Wire

/-! ### The text of a line -/

/-- Characters of the first two fields: neither spaces nor line breaks. -/
def IsSolid (c : Char) : Prop := c ≠ ' ' ∧ PemBlock.isLineBreak c = false

instance (c : Char) : Decidable (IsSolid c) := inferInstanceAs (Decidable (_ ∧ _))

theorem KeyType.solid_name (t : KeyType) : ∀ c ∈ t.name.toList, IsSolid c := by
  have each : ∀ t ∈ all, t.name.toList.all (fun c => decide (IsSolid c)) = true := by decide
  exact List.all_iff_forall_prop.1 (each t (mem_all t))

theorem Base64.solid_encode (b : Bytes) : ∀ c ∈ encode b, IsSolid c :=
  forall_mem_encode (by decide) (by decide) b

namespace PublicKey

/-- What follows the blob in a line. -/
def lineEnd (comment : String) : List Char :=
  if comment = "" then [] else ' ' :: comment.toList

/-- The characters of a line. -/
def lineText (k : PublicKey) (comment : String) : List Char :=
  k.type.name.toList ++ ' ' :: (Base64.encode k.wire ++ lineEnd comment)

theorem toList_interpolated (a b : String) : s!"{a} {b}".toList = a.toList ++ ' ' :: b.toList := by
  change (a ++ " " ++ b).toList = _
  simp

theorem toList_line (k : PublicKey) (comment : String) :
    let body := s!"{k.type.name} {String.ofList (Base64.encode k.wire)}"
    (if comment.isEmpty then body else s!"{body} {comment}").toList = k.lineText comment := by
  have empty : comment.isEmpty = true ↔ comment = "" := by simp
  dsimp only
  rw [lineText, lineEnd]
  by_cases h : comment = ""
  · rw [if_pos (empty.2 h), if_pos h, toList_interpolated, String.toList_ofList, List.append_nil]
  · rw [if_neg (mt empty.1 h), if_neg h, toList_interpolated, toList_interpolated,
      String.toList_ofList, List.append_assoc, List.cons_append]

/-- There is a line as long as no part has too many bytes for its count. -/
theorem line_eq_ok_iff {k : PublicKey} {comment out : String} :
    k.line comment = .ok out ↔
      (∀ b ∈ k.parts, b.length < countLimit) ∧ out.toList = k.lineText comment := by
  unfold line blob
  simp only [bind_eq_ok, mapError_eq_ok, encode_eq_ok_iff, pure_eq_ok]
  constructor
  · rintro ⟨_, ⟨hparts, rfl⟩, rfl⟩
    exact ⟨hparts, toList_line k comment⟩
  · rintro ⟨hparts, hout⟩
    exact ⟨k.wire, ⟨hparts, rfl⟩, String.toList_inj.1 ((toList_line k comment).trans hout.symm)⟩

end PublicKey

/-! ### Fields -/

/-- What stands in front of the first space of a text and, if there is a space, what behind it. -/
def cutAtSpace (text : List Char) : List Char × Option (List Char) :=
  (text.takeWhile (· ≠ ' '), (text.dropWhile (· ≠ ' ')).tail?)

theorem cutAtSpace_append {front : List Char} (h : ∀ c ∈ front, c ≠ ' ') (rest : List Char) :
    cutAtSpace (front ++ ' ' :: rest) = (front, some rest) := by
  have keep : ∀ c ∈ front, decide (c ≠ ' ') = true := fun c hc => decide_eq_true (h c hc)
  rw [cutAtSpace, List.takeWhile_append_of_pos keep, List.dropWhile_append_of_pos keep]
  simp

theorem cutAtSpace_of_forall {text : List Char} (h : ∀ c ∈ text, c ≠ ' ') :
    cutAtSpace text = (text, none) := by
  have keep : ∀ c ∈ text, decide (c ≠ ' ') = true := fun c hc => decide_eq_true (h c hc)
  have none_left : text.dropWhile (· ≠ ' ') = [] := List.dropWhile_eq_nil_iff.2 keep
  rw [cutAtSpace, List.takeWhile_eq_self_iff.2 keep, none_left]
  rfl

/-- A line cut at its first two spaces. Without a second space there is no comment. -/
structure LineFields where
  name : List Char
  blob : List Char
  comment : Option (List Char)
  deriving DecidableEq, Repr

def LineFields.ofText? (text : List Char) : Option LineFields :=
  match cutAtSpace text with
  | (_, none) => none
  | (name, some rest) =>
    let (blob, comment) := cutAtSpace rest
    some { name, blob, comment }

namespace PublicKey

theorem ofText?_lineText (k : PublicKey) (comment : String) :
    LineFields.ofText? (k.lineText comment) = some
      { name := k.type.name.toList
        blob := Base64.encode k.wire
        comment := if comment = "" then none else some comment.toList } := by
  have name := cutAtSpace_append fun c hc => (k.type.solid_name c hc).1
  have blob : ∀ c ∈ Base64.encode k.wire, c ≠ ' ' := fun c hc => (Base64.solid_encode k.wire c hc).1
  unfold LineFields.ofText?
  rw [lineText, name, lineEnd]
  dsimp only
  by_cases h : comment = ""
  · rw [if_pos h, if_pos h, List.append_nil, cutAtSpace_of_forall blob]
  · rw [if_neg h, if_neg h, cutAtSpace_append blob]

/-- The line of a key whose parts are not too long is cut into its fields again at its first two
spaces, of which it has the second just if there is a comment: the name of the type, the spelling of
a blob that is read as the key, and the comment. -/
theorem fields_of_line {k : PublicKey} (hk : k.WellFormed)
    (hl : ∀ b ∈ k.parts, b.length ≤ maxLength) (comment : String) :
    ∃ out fields blob, k.line comment = .ok out ∧ LineFields.ofText? out.toList = some fields ∧
      fields.name = k.type.name.toList ∧
        Base64.decode (Utf8.ofChars fields.blob) = .ok blob ∧ ofBlob blob = .ok k ∧
          fields.comment = if comment = "" then none else some comment.toList := by
  have text : (String.ofList (k.lineText comment)).toList = k.lineText comment :=
    String.toList_ofList
  have line : k.line comment = .ok (String.ofList (k.lineText comment)) :=
    line_eq_ok_iff.2 ⟨fun b hb => lt_countLimit (hl b hb), text⟩
  exact ⟨_, _, k.wire, line, by rw [text, ofText?_lineText], rfl, Base64.decode_encode _,
    ofBlob_eq_ok_iff.2 ⟨⟨hk, hl⟩, rfl⟩, rfl⟩

theorem ones_fields :
    Key.ones.WellFormed ∧ (∀ b ∈ Key.ones.parts, b.length ≤ maxLength) ∧
      ∃ out fields, Key.ones.line " two words" = .ok out ∧
        LineFields.ofText? out.toList = some fields ∧
          fields.name = "ssh-ed25519".toList ∧ fields.comment = some " two words".toList := by
  have wellFormed : Key.ones.WellFormed := rfl
  have short : ∀ b ∈ Key.ones.parts, b.length ≤ maxLength := by decide
  obtain ⟨out, fields, -, hout, hfields, hname, -, -, hcomment⟩ :=
    fields_of_line wellFormed short " two words"
  exact ⟨wellFormed, short, out, fields, hout, hfields, hname, hcomment⟩

/-- No two keys, nor one with two comments, have the same line. -/
theorem line_inj {k l : PublicKey} (hk : k.Readable) (hl : l.Readable) {comment other out : String}
    (h : k.line comment = .ok out) (h' : l.line other = .ok out) : k = l ∧ comment = other := by
  have fields := ofText?_lineText k comment
  rw [← (line_eq_ok_iff.1 h).2, (line_eq_ok_iff.1 h').2, ofText?_lineText, Option.some.injEq,
    LineFields.mk.injEq] at fields
  obtain ⟨-, hblob, hcomment⟩ := fields
  have wire : k.wire = l.wire := by
    have spelled := Base64.decode_encode k.wire
    rw [← hblob, Base64.decode_encode] at spelled
    exact (Except.ok.inj spelled).symm
  have key : ofBlob k.wire = .ok l := ofBlob_eq_ok_iff.2 ⟨hl, wire⟩
  rw [ofBlob_eq_ok_iff.2 ⟨hk, rfl⟩, Except.ok.injEq] at key
  refine ⟨key, ?_⟩
  by_cases hc : comment = ""
  · by_cases ho : other = ""
    · rw [hc, ho]
    · simp [hc, ho] at hcomment
  · by_cases ho : other = ""
    · simp [hc, ho] at hcomment
    · rw [if_neg hc, if_neg ho, Option.some.injEq] at hcomment
      exact (String.toList_inj.1 hcomment).symm

end PublicKey

/-! ### Line breaks -/

/-- Whether there is a line break in a text. -/
def HasBreak (s : String) : Prop := s.toList.any PemBlock.isLineBreak = true

instance (s : String) : Decidable (HasBreak s) := inferInstanceAs (Decidable (_ = _))

theorem hasBreak_decodeLossy_iff (b : Bytes) : HasBreak (Utf8.decodeLossy b) ↔ 13 ∈ b ∨ 10 ∈ b := by
  have isBreak (c : Char) : PemBlock.isLineBreak c = true ↔ c = '\r' ∨ c = '\n' := by
    simp [PemBlock.isLineBreak]
  simp only [HasBreak, List.any_eq_true, isBreak, and_or_left, exists_or, exists_eq_right]
  exact or_congr (Utf8.mem_decodeLossy_iff (by decide)) (Utf8.mem_decodeLossy_iff (by decide))

/-- A line has the line breaks of its comment and no others. -/
theorem PublicKey.hasBreak_line_iff {k : PublicKey} {comment out : String}
    (h : k.line comment = .ok out) : HasBreak out ↔ HasBreak comment := by
  have none_in {text : List Char} (hs : ∀ c ∈ text, IsSolid c) :
      text.any PemBlock.isLineBreak = false := by
    rw [List.any_eq_false]
    exact fun c hc => by simp [(hs c hc).2]
  have name := none_in k.type.solid_name
  have blob := none_in (Base64.solid_encode k.wire)
  have space : PemBlock.isLineBreak ' ' = false := by decide
  rw [HasBreak, HasBreak, (line_eq_ok_iff.1 h).2, lineText, lineEnd]
  by_cases hc : comment = ""
  · simp [hc, name, blob, space]
  · simp [hc, name, blob, space]

namespace Key

/-- A key from a container with a private half that is known is the one of the container and of what
its private section holds. -/
theorem eq_unlockedBy_of_tryAll {c : Container} {k : Key} (h : ofContainer c = .ok k)
    (passphrases : List String) {privateKey : PrivateKey}
    (hu : (k.tryAll passphrases).1.secret = .unlocked privateKey) :
    ∃ body s, c.Opens passphrases body ∧ PrivateSection.decode c.publicKey.type body = .ok s ∧
      (k.tryAll passphrases).1 = unlockedBy c s := by
  by_cases hcipher : c.cipher = noneName
  · rw [ofContainer_of_unencrypted hcipher, map_eq_ok] at h
    obtain ⟨s, hs, rfl⟩ := h
    exact ⟨c.body, s, by rw [Container.Opens, if_pos hcipher], hs,
      tryAll_fst_of_unlocked rfl passphrases⟩
  · rw [ofContainer_of_encrypted hcipher, Except.ok.injEq] at h
    subst h
    obtain same | ⟨passphrase, hm, s, publicKey, hs, hp, he⟩ :=
      tryAll_fst_of_locked (k := lockedBy c) rfl passphrases
    · rw [same] at hu
      cases hu
    · obtain ⟨body, hbody, hs⟩ := bind_eq_ok.1 hs
      refine ⟨body, s, ?_, hs, ?_⟩
      · rw [Container.Opens, if_neg hcipher]
        exact ⟨passphrase, hm, hbody⟩
      · obtain rfl : c.publicKey = publicKey := Except.ok.inj hp
        rw [he, opened, unlockedBy]
        by_cases hcomment : s.comment = ""
        · simp [hcomment, lockedBy]
        · simp [hcomment, lockedBy]

/-- The line of a key that was read from a text. One that is not from a container has no line
break in it. One from a container is there, and has a line break just if the bytes of the comment in
the container's private section have one. -/
theorem hasBreak_publicLine_of_parse {text : Bytes} {k : Key} (h : parse text = .ok k)
    (passphrases : List String) {privateKey : PrivateKey}
    (hu : (k.tryAll passphrases).1.secret = .unlocked privateKey) :
    (k.format ≠ .openSsh →
      ∀ line, (k.tryAll passphrases).1.publicLine = .ok line → ¬ HasBreak line) ∧
    (k.format = .openSsh → ∃ p c body check key comment behind line,
      PemBlock.parse text = .ok p ∧ Container.decode p.data = .ok c ∧ c.Opens passphrases body ∧
        privateKey.encode = .ok key ∧
          body = putWord check ++ putWord check ++ key ++ stringBytes comment ++ behind ∧
            (k.tryAll passphrases).1.publicLine = .ok line ∧
              (HasBreak line ↔ 13 ∈ comment ∨ 10 ∈ comment)) := by
  obtain ⟨p, hp, h⟩ := bind_eq_ok.1 h
  unfold ofPem at h
  split at h
  · cases h
  · obtain ⟨c, hc, h⟩ := bind_eq_ok.1 h
    obtain ⟨body, s, hopens, hs, final⟩ := eq_unlockedBy_of_tryAll h passphrases hu
    refine ⟨fun hne => absurd (readFrom_of_ofContainer h).format hne, fun _ => ?_⟩
    rw [final] at hu ⊢
    obtain rfl : s.privateKey = privateKey := Secret.unlocked.inj hu
    obtain ⟨check, key, comment, behind, -, -, -, hkey, -, hcomment, hbody⟩ :=
      PrivateSection.decode_eq_ok_iff.1 hs
    obtain ⟨first, -, -, -, hfirst, -⟩ := Container.decode_eq_ok_iff.1 hc
    have line : c.publicKey.line s.comment =
        .ok (String.ofList (c.publicKey.lineText s.comment)) :=
      PublicKey.line_eq_ok_iff.2 ⟨(PublicKey.encode_eq_ok_iff.1 hfirst).1, String.toList_ofList⟩
    refine ⟨p, c, body, check, key, comment, behind, _, hp, hc, hopens, hkey, hbody, line, ?_⟩
    rw [PublicKey.hasBreak_line_iff line, hcomment, hasBreak_decodeLossy_iff]
  · next kind hlabel =>
    -- a key that is not from a container has no comment
    obtain ⟨-, hformat, -⟩ := ofLegacy_eq_ok h
    refine ⟨fun _ line hline => ?_, fun he => ?_⟩
    · obtain ⟨publicKey, -, hline⟩ := bind_eq_ok.1 hline
      obtain ⟨-, -, -, -, -, -, hcomment⟩ := tryAll_of_ofLegacy h passphrases hu
      rw [hcomment] at hline
      rw [PublicKey.hasBreak_line_iff hline]
      simp [HasBreak]
    · rw [hformat] at he
      cases he

/-- A private half for the public half of ones. -/
def onesPrivate : PrivateKey where
  type := .ed25519
  preamble := []
  parts := [List.replicate 32 1, List.replicate 32 3 ++ List.replicate 32 1]

/-- A key with a line feed in its comment. -/
def twoLines : Key :=
  { type := .ed25519, format := .openSsh, publicHalf := some ones, comment := "two\nlines",
    cipher := noneName, kdf := noneName, kdfOptions := [], secret := .unlocked onesPrivate }

/-- The private section of `twoLines` with 7 for its check integers. -/
def twoLinesBody : Bytes :=
  PrivateSection.wire ⟨onesPrivate, "two\nlines"⟩ 7 ++
    PrivateSection.padding (PrivateSection.wire ⟨onesPrivate, "two\nlines"⟩ 7).length

def twoLinesText : Bytes :=
  Utf8.encode (PemBlock.encode
    { label := KeyFormat.openSsh.label
      data := (Container.plain ones twoLinesBody).wire } lineWidth)

theorem parse_twoLinesText : parse twoLinesText = .ok twoLines := by
  have wellFormed : twoLines.WellFormed :=
    wellFormed_of_halves rfl rfl ⟨rfl, rfl⟩ ⟨rfl, PrivateKey.wellFormed_iff.2 ⟨rfl, rfl⟩⟩
      (by simp [twoLines])
  have body : PrivateSection.encode ⟨onesPrivate, twoLines.comment⟩ 7 = .ok twoLinesBody :=
    PrivateSection.encode_eq_ok_iff.2 ⟨by decide, by decide, rfl⟩
  exact parse_plain wellFormed rfl rfl body (by decide +kernel) (by decide +kernel)

theorem twoLines_publicLine : parse twoLinesText = .ok twoLines ∧
    ∃ (line : String) (comment : Bytes), (twoLines.tryAll ["open"]).1.publicLine = .ok line ∧
      (HasBreak line ↔ 13 ∈ comment ∨ 10 ∈ comment) := by
  obtain ⟨-, -, body, -, -, comment, -, line, -, -, -, -, -, hline, hbreak⟩ :=
    (hasBreak_publicLine_of_parse parse_twoLinesText ["open"] rfl).2 rfl
  exact ⟨parse_twoLinesText, line, comment, hline, hbreak⟩

/-- The line of a key that was read from a text need not be a single one. -/
theorem publicLine_of_two_lines :
    ¬ ∀ (text : Bytes) (k : Key), parse text = .ok k → ∀ (passphrases : List String)
      (privateKey : PrivateKey), (k.tryAll passphrases).1.secret = .unlocked privateKey →
        ∀ line, (k.tryAll passphrases).1.publicLine = .ok line → ¬ HasBreak line := by
  intro single
  have text : (String.ofList (ones.lineText "two\nlines")).toList = ones.lineText "two\nlines" :=
    String.toList_ofList
  have line : ones.line "two\nlines" = .ok (String.ofList (ones.lineText "two\nlines")) :=
    PublicKey.line_eq_ok_iff.2 ⟨by decide, text⟩
  have none_in := single _ _ parse_twoLinesText [] onesPrivate rfl _ line
  rw [PublicKey.hasBreak_line_iff line] at none_in
  exact none_in (by decide)

end Key

end SshKeyring
