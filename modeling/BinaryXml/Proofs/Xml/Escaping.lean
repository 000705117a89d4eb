import BinaryXml.Proofs.Text.Numeral
import BinaryXml.Proofs.Text.Utf8
import BinaryXml.Proofs.Xml.Grammar
import BinaryXml.Xml.Writing

/-! # Character data that is written and read

* `escapeChar_cases`: a character is written as it is or as a reference to it.
* `unescape_escape`: an attribute value is read again.
* `Parsing.Spelled`: bytes that stand for characters, as they are or in pieces of markup.
* `Parsing.Spelled.yields`: they are read as texts that make up these characters.
* `Parsing.yields_escape`: so character data in an element is read again.
* `plain_of_mem_escape`: what is written has no brackets, and in attribute values no quotes.
-/

namespace BinaryXml

set_option autoImplicit false

/-! ## References -/

namespace Reference

/-- A name that stands for a character wherever there may be a reference. -/
structure Names (name : List Char) (c : Char) : Prop where
  inContent : inContent? name = some c
  inAttribute : inAttribute? name = some c
  plain : ∀ d ∈ name, d ∉ [';', '&', '<', '>', '\'', '"'] ∧ d.toNat < 0x80

theorem Names.not_mark {name : List Char} {c : Char} (names : Names name c) :
    ∀ d ∈ name, d ∉ [';', '&', '<'] := by
  intro d hd hmem
  refine (names.plain d hd).1 ?_
  simp only [List.mem_cons, List.not_mem_nil, or_false] at hmem ⊢
  rcases hmem with rfl | rfl | rfl <;> simp

/-- The end of a reference is found, and no other reference begins before it. -/
theorem Names.undelimited {name : List Char} {c : Char} (names : Names name c) :
    ∀ d ∈ name, d ≠ ';' ∧ d ≠ '&' := by
  intro d hd
  have hmark := names.not_mark d hd
  simp only [List.mem_cons, not_or] at hmark
  exact ⟨hmark.1, hmark.2.1⟩

theorem char?_toNat (c : Char) : Scalar.char? c.toNat = some c := by
  have hvalid : c.toNat.isValidChar := c.valid
  unfold Scalar.char?
  rw [if_pos hvalid, Char.ofNat_toNat]

theorem names_predefined {name : List Char} {c : Char} (h : predefined? name = some c) :
    Names name c := by
  unfold predefined? at h
  split_ifs at h
  all_goals
    subst name
    cases h
    exact ⟨rfl, rfl, by simp⟩

theorem Names.ascii {name : List Char} {c : Char} (names : Names name c) :
    ∀ d ∈ '&' :: (name ++ [';']), d.toNat < 0x80 := by
  intro d hd
  rw [List.mem_cons, List.mem_append, List.mem_singleton] at hd
  rcases hd with rfl | hd | rfl
  · decide
  · exact (names.plain d hd).2
  · decide

/-- The number of a character in hexadecimal digits. -/
theorem names_digits {c : Char} (h : 0x80 ≤ c.toNat) :
    Names ('#' :: 'x' :: Numeral.digits 16 c.toNat) c := by
  have hsmall : c.toNat < 0x100000000 := Nat.lt_of_lt_of_le c.val.toNat_lt (by decide)
  have hzero : c.toNat ≠ 0 := by omega
  refine ⟨?_, ?_, ?_⟩
  · change (Numeral.read 16 0x100000000 (Numeral.digits 16 c.toNat)).bind Scalar.char? = some c
    rw [Numeral.read_digits hsmall, Option.bind_some, char?_toNat]
  · change ((Numeral.readDigits 16 (Numeral.digits 16 c.toNat)).filter (· != 0)).bind
      Scalar.char? = some c
    rw [Numeral.readDigits_digits, Option.filter_some, if_pos (by simpa using hzero),
      Option.bind_some, char?_toNat]
  · intro d hd
    rcases List.mem_cons.mp hd with rfl | hd
    · decide
    rcases List.mem_cons.mp hd with rfl | hd
    · decide
    have hdigit := Numeral.toNat_of_mem_digits hd
    refine ⟨?_, by omega⟩
    intro hmem
    have hspecial : ∀ d ∈ [';', '&', '<', '>', '\'', '"'], ¬ (0x30 ≤ d.toNat ∧ d.toNat ≤ 0x39 ∨
        0x41 ≤ d.toNat ∧ d.toNat ≤ 0x46) := by
      simp
    exact hspecial d hmem hdigit

end Reference

/-! ## Single characters -/

namespace Writing

/-- A character as it is written. -/
def escapeChar (charset : Charset) (inAttribute : Bool) (c : Char) : List Char :=
  (escapeMarkup inAttribute c).flatMap (escapeForeign charset)

theorem toList_escape (charset : Charset) (inAttribute : Bool) (data : String) :
    (escape charset inAttribute data).toList =
      data.toList.flatMap (escapeChar charset inAttribute) := by
  rw [escape, String.toList_ofList, List.flatMap_assoc]
  rfl

theorem escape_append (charset : Charset) (inAttribute : Bool) (front back : String) :
    escape charset inAttribute (front ++ back) =
      escape charset inAttribute front ++ escape charset inAttribute back := by
  refine String.toList_inj.mp ?_
  rw [String.toList_append, toList_escape, toList_escape, toList_escape, String.toList_append,
    List.flatMap_append]

theorem canEncode_of_ascii {charset : Charset} {c : Char} (h : c.toNat < 0x80) :
    charset.canEncode c = true := by
  cases charset <;> simp only [Charset.canEncode, decide_eq_true_eq] <;> omega

theorem escapeForeign_of_ascii (charset : Charset) {c : Char} (h : c.toNat < 0x80) :
    escapeForeign charset c = [c] := by
  unfold escapeForeign
  rw [if_pos (canEncode_of_ascii h)]

/-- References by name are left as they are. -/
theorem flatMap_escapeForeign (charset : Charset) {chars : List Char}
    (h : ∀ c ∈ chars, c.toNat < 0x80) : chars.flatMap (escapeForeign charset) = chars := by
  induction chars with
  | nil => rfl
  | cons c rest ih =>
    have hrest := ih fun d hd => h d (List.mem_cons_of_mem _ hd)
    rw [List.flatMap_cons, escapeForeign_of_ascii charset (h c List.mem_cons_self), hrest]
    rfl

/-- A character that is part of markup becomes a reference by name. -/
theorem escapeMarkup_cases (inAttribute : Bool) (c : Char) :
    escapeMarkup inAttribute c = [c] ∧ c ∉ ['<', '>', '&'] ∧
        (inAttribute = true → c ∉ ['\'', '"']) ∨
      ∃ name, escapeMarkup inAttribute c = '&' :: (name ++ [';']) ∧
        Reference.predefined? name = some c := by
  unfold escapeMarkup
  split
  · rename_i heq
    exact .inr ⟨['l', 't'], rfl, heq ▸ rfl⟩
  rename_i hlt
  split
  · rename_i heq
    exact .inr ⟨['g', 't'], rfl, heq ▸ rfl⟩
  rename_i hgt
  split
  · rename_i heq
    exact .inr ⟨['a', 'm', 'p'], rfl, heq ▸ rfl⟩
  rename_i hamp
  split
  · rename_i heq
    simp only [Bool.and_eq_true, beq_iff_eq] at heq
    exact .inr ⟨['a', 'p', 'o', 's'], rfl, heq.2 ▸ rfl⟩
  rename_i hapos
  split
  · rename_i heq
    simp only [Bool.and_eq_true, beq_iff_eq] at heq
    exact .inr ⟨['q', 'u', 'o', 't'], rfl, heq.2 ▸ rfl⟩
  rename_i hquot
  refine .inl ⟨rfl, by simp [hlt, hgt, hamp], fun hattribute => ?_⟩
  simp only [hattribute, Bool.true_and, beq_iff_eq] at hapos hquot
  simp [hapos, hquot]

/-- A character that a character set lacks is not an ASCII character. -/
theorem le_toNat_of_foreign {charset : Charset} {c : Char} (h : charset.canEncode c ≠ true) :
    0x80 ≤ c.toNat :=
  Nat.le_of_not_lt fun hsmall => h (canEncode_of_ascii hsmall)

/-- A character is written as it is, if it is no part of markup, or as a reference to it. -/
theorem escapeChar_cases (charset : Charset) (inAttribute : Bool) (c : Char) :
    escapeChar charset inAttribute c = [c] ∧ c ∉ ['<', '>', '&'] ∧
        (inAttribute = true → c ∉ ['\'', '"']) ∨
      ∃ name, escapeChar charset inAttribute c = '&' :: (name ++ [';']) ∧ Reference.Names name c := by
  unfold escapeChar
  rcases escapeMarkup_cases inAttribute c with ⟨hsame, hplain⟩ | ⟨name, hname, hpredefined⟩
  · rw [hsame, List.flatMap_singleton]
    unfold escapeForeign
    split
    · exact .inl ⟨rfl, hplain⟩
    · rename_i hforeign
      exact .inr ⟨_, rfl, Reference.names_digits (le_toNat_of_foreign hforeign)⟩
  · have hnames := Reference.names_predefined hpredefined
    exact .inr ⟨name, by rw [hname, flatMap_escapeForeign charset hnames.ascii], hnames⟩

/-! ## Attribute values -/

/-- A reference inside of which characters of its name follow. -/
theorem unescapeFrom_name {read name : List Char} {rest : List Char}
    (h : ∀ d ∈ name, d ≠ ';' ∧ d ≠ '&') :
    Reference.unescapeFrom (some read) (name ++ rest) =
      Reference.unescapeFrom (some (read ++ name)) rest := by
  induction name generalizing read with
  | nil => simp
  | cons c name ih =>
    obtain ⟨hend, hamp⟩ := h c List.mem_cons_self
    rw [List.cons_append, Reference.unescapeFrom, if_neg hend, if_neg hamp,
      ih fun d hd => h d (List.mem_cons_of_mem _ hd), List.append_assoc, List.singleton_append]

theorem unescapeFrom_reference {name : List Char} (plain : ∀ d ∈ name, d ≠ ';' ∧ d ≠ '&')
    (rest : List Char) : Reference.unescapeFrom none ('&' :: (name ++ ';' :: rest)) =
      (Reference.inAttribute? name).bind fun c => (c :: ·) <$> Reference.unescapeFrom none rest := by
  rw [Reference.unescapeFrom, if_pos rfl, unescapeFrom_name plain, List.nil_append,
    Reference.unescapeFrom, if_pos rfl]
  cases Reference.inAttribute? name with
  | none => rfl
  | some c => cases Reference.unescapeFrom none rest <;> rfl

theorem unescapeFrom_escapeChar (charset : Charset) (inAttribute : Bool) (c : Char)
    (rest : List Char) :
    Reference.unescapeFrom none (escapeChar charset inAttribute c ++ rest) =
      (c :: ·) <$> Reference.unescapeFrom none rest := by
  rcases escapeChar_cases charset inAttribute c with ⟨hsame, hplain, -⟩ | ⟨name, hname, hnames⟩
  · have hamp : c ≠ '&' := by
      rintro rfl
      simp at hplain
    rw [hsame, List.singleton_append, Reference.unescapeFrom, if_neg hamp]
  · rw [hname, List.cons_append, List.append_assoc, List.singleton_append,
      unescapeFrom_reference hnames.undelimited, hnames.inAttribute, Option.bind_some]

theorem unescape_escape (charset : Charset) (inAttribute : Bool) (data : String) :
    Reference.unescape (escape charset inAttribute data) = some data := by
  have hchars (chars : List Char) : Reference.unescapeFrom none
      (chars.flatMap (escapeChar charset inAttribute)) = some chars := by
    induction chars with
    | nil => rfl
    | cons c chars ih =>
      rw [List.flatMap_cons, unescapeFrom_escapeChar, ih]
      rfl
  rw [Reference.unescape, toList_escape, hchars, Option.map_eq_map, Option.map_some,
    String.ofList_toList]

/-! ## Bytes of character data -/

/-- What is written has no brackets, and in attribute values no quotes. -/
theorem plain_of_mem_escape {charset : Charset} {inAttribute : Bool} {data : String} {b : UInt8}
    (h : b ∈ Utf8.encode (escape charset inAttribute data)) :
    b ≠ 0x3C ∧ b ≠ 0x3E ∧ (inAttribute = true → b ≠ 0x22 ∧ b ≠ 0x27) := by
  have hchars {c : Char} (hmem : c ∈ (escape charset inAttribute data).toList) :
      c ≠ '<' ∧ c ≠ '>' ∧ (inAttribute = true → c ≠ '"' ∧ c ≠ '\'') := by
    rw [toList_escape] at hmem
    obtain ⟨d, -, hd⟩ := List.mem_flatMap.mp hmem
    rcases escapeChar_cases charset inAttribute d with ⟨hsame, hplain, hquote⟩ | ⟨name, hname, hnames⟩
    · rw [hsame, List.mem_singleton] at hd
      subst hd
      simp only [List.mem_cons, not_or] at hplain hquote
      exact ⟨hplain.1, hplain.2.1, fun hattribute => ⟨(hquote hattribute).2.1,
        (hquote hattribute).1⟩⟩
    · rw [hname, List.mem_cons, List.mem_append, List.mem_singleton] at hd
      rcases hd with rfl | hd | rfl
      · exact ⟨by decide, by decide, fun _ => by decide⟩
      · have hspecial := (hnames.plain c hd).1
        simp only [List.mem_cons, not_or] at hspecial
        obtain ⟨-, -, hlt, hgt, hapos, hquot, -⟩ := hspecial
        exact ⟨hlt, hgt, fun _ => ⟨hquot, hapos⟩⟩
      · exact ⟨by decide, by decide, fun _ => by decide⟩
  have hbyte (b : UInt8) (hb : b < 0x80) (hmem : b ∈ Utf8.encode (escape charset inAttribute data)) :=
    hchars ((Utf8.mem_encode_iff hb _).mp hmem)
  refine ⟨?_, ?_, fun hattribute => ⟨?_, ?_⟩⟩
  · rintro rfl
    exact (hbyte _ (by decide) h).1 rfl
  · rintro rfl
    exact (hbyte _ (by decide) h).2.1 rfl
  · rintro rfl
    exact ((hbyte _ (by decide) h).2.2 hattribute).1 rfl
  · rintro rfl
    exact ((hbyte _ (by decide) h).2.2 hattribute).2 rfl

end Writing

/-! ## Pieces of character data -/

namespace Parsing
open Markup (next isText)

theorem utf8_encode (text : String) : utf8 (Utf8.encode text) = .ok text := by
  unfold utf8
  rw [Utf8.decode_encode]

/-- Bytes without markup are one piece up to the next markup. -/
theorem starts_text {run : String} {tail : Bytes} {b : UInt8} {rest : Bytes} (hne : run ≠ "")
    (hrun : ∀ b ∈ Utf8.encode run, isText b = true) (htail : tail = b :: rest)
    (hmarkup : isText b = false) :
    Starts (Utf8.encode run ++ tail) (.text (Utf8.encode run)) tail := by
  have hbytes : Utf8.encode run ≠ [] := by
    intro hnil
    exact hne (Utf8.encode_injective (hnil.trans rfl))
  refine ⟨by simp [hbytes], ?_⟩
  have htake : (Utf8.encode run ++ tail).takeWhile isText = Utf8.encode run := by
    rw [List.takeWhile_append_of_pos hrun, htail,
      List.takeWhile_cons_of_neg (by simp [hmarkup]), List.append_nil]
  have hdrop : (Utf8.encode run ++ tail).dropWhile isText = tail := by
    rw [List.dropWhile_append_of_pos hrun, htail, List.dropWhile_cons_of_neg (by simp [hmarkup])]
  obtain ⟨first, others, hcons⟩ := List.exists_cons_of_ne_nil hbytes
  have hfirst := hrun first (by rw [hcons]; exact List.mem_cons_self)
  have hnext : next (Utf8.encode run ++ tail) =
      some (.text ((Utf8.encode run ++ tail).takeWhile isText),
        (Utf8.encode run ++ tail).dropWhile isText) := by
    rw [hcons, List.cons_append]
    unfold next
    split
    · rename_i heq
      cases heq
      cases hfirst
    · rename_i heq
      cases heq
      cases hfirst
    · rfl
  rw [hnext, htake, hdrop]

theorem starts_reference {name : String} (h : ∀ c ∈ name.toList, c ∉ [';', '&', '<']) (tail : Bytes) :
    Starts (0x26 :: (Utf8.encode name ++ 0x3B :: tail)) (.reference (Utf8.encode name)) tail := by
  have hname : ∀ b ∈ Utf8.encode name, (b != 0x3B && b != 0x26 && b != 0x3C) = true := by
    intro b hb
    have hchar (b : UInt8) (hsmall : b < 0x80) (hb : b ∈ Utf8.encode name) :=
      h _ ((Utf8.mem_encode_iff hsmall _).mp hb)
    simp only [Bool.and_eq_true, bne_iff_ne]
    refine ⟨⟨?_, ?_⟩, ?_⟩
    · rintro rfl
      exact hchar _ (by decide) hb (by decide)
    · rintro rfl
      exact hchar _ (by decide) hb (by decide)
    · rintro rfl
      exact hchar _ (by decide) hb (by decide)
  refine ⟨by simp, ?_⟩
  have htake : (Utf8.encode name ++ 0x3B :: tail).takeWhile
      (fun b => b != 0x3B && b != 0x26 && b != 0x3C) = Utf8.encode name := by
    rw [List.takeWhile_append_of_pos hname, List.takeWhile_cons_of_neg (by decide),
      List.append_nil]
  change Markup.referred _ = _
  unfold Markup.referred
  rw [htake]
  simp only [List.drop_left]

section Yields
variable {context : Context} {scope : Scope} {depth : Nat} {opened : Open} {tail : Bytes}

/-- Some bytes are read as texts in front of what the rest is read as. -/
def Yields (context : Context) (scope : Scope) (depth : Nat) (opened : Open) (bytes tail : Bytes)
    (texts : List String) : Prop :=
  ∀ nodes last, Content context scope depth opened (bytes ++ tail) nodes last ↔
    ∃ others, nodes = texts.map .text ++ others ∧
      Content context scope depth opened tail others last

theorem yields_nil : Yields context scope depth opened [] tail [] := by
  intro nodes last
  constructor
  · intro h
    exact ⟨nodes, rfl, h⟩
  · rintro ⟨others, rfl, h⟩
    exact h

theorem Yields.append {front back : Bytes} {first second : List String}
    (h : Yields context scope depth opened front (back ++ tail) first)
    (h' : Yields context scope depth opened back tail second) :
    Yields context scope depth opened (front ++ back) tail (first ++ second) := by
  intro nodes last
  rw [List.append_assoc, h nodes last]
  constructor
  · rintro ⟨others, rfl, hothers⟩
    obtain ⟨others', rfl, hothers'⟩ := (h' others last).mp hothers
    exact ⟨others', by rw [List.map_append, List.append_assoc], hothers'⟩
  · rintro ⟨others, rfl, hothers⟩
    exact ⟨second.map .text ++ others, by rw [List.map_append, List.append_assoc],
      (h' _ last).mpr ⟨others, rfl, hothers⟩⟩

theorem yields_of_starts {bytes : Bytes} {piece : Markup} {text : String}
    (starts : Starts (bytes ++ tail) piece tail)
    (single : leaf? piece = some (.ok (.text text))) :
    Yields context scope depth opened bytes tail [text] := by
  intro nodes last
  rw [content_leaf_iff starts single]
  constructor
  · rintro ⟨node, others, hnode, rfl, h⟩
    cases hnode
    exact ⟨others, rfl, h⟩
  · rintro ⟨others, rfl, h⟩
    exact ⟨.text text, others, rfl, rfl, h⟩

/-- Characters without markup are one text, or none. -/
theorem yields_run (run : List Char) {b : UInt8} {rest : Bytes}
    (hrun : ∀ c ∈ run, c ∉ ['<', '&']) (htail : tail = b :: rest) (hmarkup : isText b = false) :
    ∃ texts, String.join texts = String.ofList run ∧
      Yields context scope depth opened (Utf8.encodeChars run) tail texts := by
  by_cases hne : run = []
  · subst hne
    exact ⟨[], rfl, yields_nil⟩
  · have hencode : Utf8.encode (String.ofList run) = Utf8.encodeChars run := by
      rw [Utf8.encode, String.toList_ofList]
    have hbytes : ∀ b ∈ Utf8.encode (String.ofList run), isText b = true := by
      intro b hb
      have hchar (b : UInt8) (hsmall : b < 0x80) (hb : b ∈ Utf8.encode (String.ofList run)) := by
        have hmem := (Utf8.mem_encode_iff hsmall _).mp hb
        rw [String.toList_ofList] at hmem
        exact hrun _ hmem
      simp only [isText, Bool.and_eq_true, bne_iff_ne]
      constructor
      · rintro rfl
        exact hchar _ (by decide) hb (by decide)
      · rintro rfl
        exact hchar _ (by decide) hb (by decide)
    have hstring : String.ofList run ≠ "" := by
      intro hempty
      exact hne (by simpa using congrArg String.toList hempty)
    have hstarts := starts_text hstring hbytes htail hmarkup
    have hsingle : leaf? (.text (Utf8.encode (String.ofList run))) =
        some (.ok (.text (String.ofList run))) := by
      rw [leaf?, utf8_encode]
      rfl
    rw [← hencode]
    exact ⟨[String.ofList run], by simp [String.join], yields_of_starts hstarts hsingle⟩

/-- Where a reference stands in content, there is the character that it has there, if it has one. -/
theorem content_reference_iff {name : List Char} (plain : ∀ d ∈ name, d ∉ [';', '&', '<'])
    (nodes : List Node) (last : Bytes) : Content context scope depth opened
      (Utf8.encodeChars ('&' :: (name ++ [';'])) ++ tail) nodes last ↔
        ∃ c others, Reference.inContent? name = some c ∧
          nodes = .text (String.singleton c) :: others ∧
            Content context scope depth opened tail others last := by
  have hbytes : Utf8.encodeChars ('&' :: (name ++ [';'])) ++ tail =
      0x26 :: (Utf8.encode (String.ofList name) ++ 0x3B :: tail) := by
    rw [Utf8.encode, String.toList_ofList]
    unfold Utf8.encodeChars
    rw [List.flatMap_cons, List.flatMap_append, List.append_assoc, List.append_assoc]
    rfl
  have hplain : ∀ d ∈ (String.ofList name).toList, d ∉ [';', '&', '<'] := by
    rwa [String.toList_ofList]
  have hstarts := starts_reference hplain tail
  have htext (text : String) : reference (Utf8.encode (String.ofList name)) = .ok text ↔
      ∃ c, Reference.inContent? name = some c ∧ text = String.singleton c := by
    refine bind_eq_ok_iff.trans ?_
    rw [utf8_encode]
    cases hfound : Reference.inContent? name with
    | none => simp [String.toList_ofList, hfound]
    | some c => simp [String.toList_ofList, hfound, eq_comm]
  rw [hbytes, content_leaf_iff hstarts rfl]
  constructor
  · rintro ⟨node, others, hnode, rfl, h⟩
    obtain ⟨text, hreference, rfl⟩ := map_eq_ok_iff.mp hnode
    obtain ⟨c, hc, rfl⟩ := (htext text).mp hreference
    exact ⟨c, others, hc, rfl, h⟩
  · rintro ⟨c, others, hc, rfl, h⟩
    exact ⟨_, others, map_eq_ok_iff.mpr ⟨_, (htext _).mpr ⟨c, hc, rfl⟩, rfl⟩, rfl, h⟩

/-- A character that is written as a reference is read again. -/
theorem yields_reference {name : List Char} {c : Char} (hname : Reference.inContent? name = some c)
    (plain : ∀ d ∈ name, d ∉ [';', '&', '<']) :
    Yields context scope depth opened (Utf8.encodeChars ('&' :: (name ++ [';']))) tail
      [String.singleton c] := by
  intro nodes last
  rw [content_reference_iff plain, hname]
  constructor
  · rintro ⟨_, others, ⟨⟩, rfl, h⟩
    exact ⟨others, rfl, h⟩
  · rintro ⟨others, rfl, h⟩
    exact ⟨c, others, rfl, rfl, h⟩

/-- Bytes that stand for characters: each is written as it is, or a piece of markup stands for
some of them. -/
inductive Spelled (context : Context) (scope : Scope) (depth : Nat) (opened : Open) :
    Bytes → List Char → Prop
  | nil : Spelled context scope depth opened [] []
  | char {c : Char} {bytes : Bytes} {chars : List Char} (plain : c ∉ ['<', '&'])
      (rest : Spelled context scope depth opened bytes chars) :
      Spelled context scope depth opened (String.utf8EncodeChar c ++ bytes) (c :: chars)
  | piece {b : UInt8} {front bytes : Bytes} {text chars : List Char} (markup : isText b = false)
      (yields : ∀ tail, Yields context scope depth opened (b :: front) tail [String.ofList text])
      (rest : Spelled context scope depth opened bytes chars) :
      Spelled context scope depth opened ((b :: front) ++ bytes) (text ++ chars)

theorem Spelled.append {front back : Bytes} {first second : List Char}
    (h : Spelled context scope depth opened front first)
    (h' : Spelled context scope depth opened back second) :
    Spelled context scope depth opened (front ++ back) (first ++ second) := by
  induction h with
  | nil => exact h'
  | char plain _ ih =>
    rw [List.append_assoc]
    exact .char plain ih
  | piece markup yields _ ih =>
    rw [List.append_assoc, List.append_assoc]
    exact .piece markup yields ih

/-- Characters are read as texts that make them up, whatever they are written as. -/
theorem Spelled.yields {bytes rest : Bytes} {chars : List Char} {b : UInt8}
    (h : Spelled context scope depth opened bytes chars) (htail : tail = b :: rest)
    (hmarkup : isText b = false) : ∃ texts, String.join texts = String.ofList chars ∧
      Yields context scope depth opened bytes tail texts := by
  -- The characters of `run` stand before the others and make one text with those that follow.
  have hrun (run : List Char) (plain : ∀ c ∈ run, c ∉ ['<', '&']) :
      ∃ texts, String.join texts = String.ofList (run ++ chars) ∧
        Yields context scope depth opened (Utf8.encodeChars run ++ bytes) tail texts := by
    induction h generalizing run with
    | nil =>
      simp only [List.append_nil]
      exact yields_run run plain htail hmarkup
    | @char c bytes chars hc _ ih =>
      have hsnoc : ∀ d ∈ run ++ [c], d ∉ ['<', '&'] := by
        intro d hd
        rcases List.mem_append.mp hd with hd | hd
        · exact plain d hd
        · rwa [List.mem_singleton.mp hd]
      obtain ⟨texts, hjoin, hyields⟩ := ih (run ++ [c]) hsnoc
      have hbytes : Utf8.encodeChars (run ++ [c]) =
          Utf8.encodeChars run ++ String.utf8EncodeChar c := by
        simp [Utf8.encodeChars]
      rw [hbytes, List.append_assoc] at hyields
      exact ⟨texts, by rw [hjoin, List.append_assoc]; rfl, hyields⟩
    | @piece first front bytes text chars markup yields _ ih =>
      obtain ⟨back, hback, hothers⟩ := ih [] (by simp)
      have htail : first :: front ++ bytes ++ tail = first :: (front ++ bytes ++ tail) := rfl
      obtain ⟨first, hfirst, hyields⟩ : ∃ texts, String.join texts = String.ofList run ∧
          Yields context scope depth opened (Utf8.encodeChars run) (first :: front ++ bytes ++ tail)
            texts := yields_run run plain htail markup
      refine ⟨first ++ ([String.ofList text] ++ back), ?_,
        hyields.append ((yields _).append hothers)⟩
      have hsingle : String.join [String.ofList text] = String.ofList text := by simp [String.join]
      rw [String.join_append, String.join_append, hfirst, hsingle, hback, List.nil_append,
        ← String.ofList_append, ← String.ofList_append]
  exact hrun [] (by simp)

theorem Spelled.reference {name : List Char} {c : Char}
    (hname : Reference.inContent? name = some c) (plain : ∀ d ∈ name, d ∉ [';', '&', '<']) :
    Spelled context scope depth opened (Utf8.encodeChars ('&' :: (name ++ [';']))) [c] := by
  have hbytes : Utf8.encodeChars ('&' :: (name ++ [';'])) =
      0x26 :: Utf8.encodeChars (name ++ [';']) := rfl
  have hpiece : Spelled context scope depth opened
      ((0x26 :: Utf8.encodeChars (name ++ [';'])) ++ []) ([c] ++ []) := by
    refine .piece rfl (fun tail => ?_) .nil
    rw [← hbytes]
    exact yields_reference hname plain
  rw [hbytes]
  rwa [List.append_nil, List.append_nil] at hpiece

theorem spelled_escape (charset : Charset) (data : String) : Spelled context scope depth opened
    (Utf8.encode (Writing.escape charset false data)) data.toList := by
  rw [Utf8.encode, Writing.toList_escape]
  induction data.toList with
  | nil => exact .nil
  | cons c chars ih =>
    rw [List.flatMap_cons, Utf8.encodeChars_append]
    rcases Writing.escapeChar_cases charset false c with ⟨hsame, hplain, -⟩ | ⟨name, hname, names⟩
    · have hbytes : Utf8.encodeChars [c] = String.utf8EncodeChar c := by simp [Utf8.encodeChars]
      rw [hsame, hbytes]
      refine .char (fun hmem => hplain ?_) ih
      simp only [List.mem_cons, List.not_mem_nil, or_false] at hmem ⊢
      exact hmem.imp_right .inr
    · rw [hname]
      exact (Spelled.reference names.inContent names.not_mark).append ih

/-- Character data in an element is read again, in as many pieces as there are. -/
theorem yields_escape (charset : Charset) (data : String) {rest : Bytes}
    (htail : tail = 0x3C :: rest) : ∃ texts, String.join texts = data ∧
      Yields context scope depth opened (Utf8.encode (Writing.escape charset false data)) tail
        texts := by
  obtain ⟨texts, hjoin, h⟩ := (spelled_escape charset data).yields htail rfl
  exact ⟨texts, by rw [hjoin, String.ofList_toList], h⟩

end Yields

end Parsing

end BinaryXml
