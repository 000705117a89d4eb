import BinaryXml.Proofs.Xml.Escaping

/-! # Attributes that are written and read

* `AttributeList.IsKey`: the bytes that are read as one key.
* `scan_attributeBytes`: an attribute with such a name is taken off a tag.
* `attributes_eq_ok`: which names the attributes of a tag can have.
* `countP_lt_of_cut`: in front of a bracket among attributes, fewer of them are read.
-/

namespace BinaryXml

set_option autoImplicit false

/-! ## Taking attributes off a tag -/

namespace AttributeList

open Markup (isSpace isQuote cut)

/-- What is read as one key: a byte that is no space, and then neither spaces nor `=`. -/
def IsKey (bytes : Bytes) : Prop :=
  ∃ first rest, bytes = first :: rest ∧ isSpace first = false ∧ ∀ b ∈ rest, isKey b = true

theorem quotedValue_eq_some {text value rest : Bytes} (h : quotedValue text = some (value, rest)) :
    ∃ quote, text = quote :: (value ++ quote :: rest) := by
  cases text with
  | nil => cases h
  | cons quote text =>
    cases hquote : isQuote quote with
    | false =>
      rw [quotedValue, hquote] at h
      cases h
    | true =>
      rw [quotedValue, hquote] at h
      refine ⟨quote, ?_⟩
      rw [Markup.cut_eq_some h, List.append_assoc]
      rfl

/-- An attribute that is taken off a text has a key, and more bytes around its value. -/
theorem one_eq_some {first : UInt8} {text rest : Bytes} {item : RawAttribute}
    (hfirst : isSpace first = false) (h : one first text = some (item, rest)) :
    IsKey item.key ∧ ∃ middle, middle ≠ [] ∧ first :: text = item.key ++ (middle ++ rest) := by
  unfold one at h
  dsimp only at h
  split at h
  · rename_i behind hbehind
    obtain ⟨⟨value, rest'⟩, hvalue, heq⟩ := Option.map_eq_some_iff.mp h
    cases heq
    obtain ⟨quote, hquoted⟩ := quotedValue_eq_some hvalue
    have hkey : ∀ b ∈ text.takeWhile isKey, isKey b = true := fun b hb =>
      List.all_eq_true.mp List.all_takeWhile b hb
    have htext := List.takeWhile_append_dropWhile (p := isKey) (l := text)
    have hgap := List.takeWhile_append_dropWhile (p := isSpace) (l := text.dropWhile isKey)
    have hgap' := List.takeWhile_append_dropWhile (p := isSpace) (l := behind)
    rw [hquoted] at hgap'
    rw [hbehind, ← hgap'] at hgap
    refine ⟨⟨first, _, rfl, hfirst, hkey⟩, (text.dropWhile isKey).takeWhile isSpace ++
      0x3D :: (behind.takeWhile isSpace ++ quote :: (value ++ [quote])), by simp, ?_⟩
    rw [List.cons_append]
    congr 1
    conv => lhs; rw [← htext, ← hgap]
    simp only [List.append_assoc, List.cons_append, List.nil_append]
  · cases h

theorem one_eq {first : UInt8} {text behind : Bytes}
    (h : (text.dropWhile isKey).dropWhile isSpace = 0x3D :: behind) :
    one first text = (quotedValue (behind.dropWhile isSpace)).map fun found =>
      (⟨first :: text.takeWhile isKey, found.1⟩, found.2) := by
  unfold one
  rw [h]
  rfl

theorem quotedValue_double (text : Bytes) : quotedValue (0x22 :: text) = cut [0x22] text := rfl

theorem length_lt_of_one {first : UInt8} {text rest : Bytes} {item : RawAttribute}
    (hfirst : isSpace first = false) (h : one first text = some (item, rest)) :
    rest.length < (first :: text).length := by
  obtain ⟨-, middle, hmiddle, htext⟩ := one_eq_some hfirst h
  have hpos := List.length_pos_iff.mpr hmiddle
  rw [htext, List.length_append, List.length_append]
  omega

theorem isSpace_of_dropWhile {text rest : Bytes} {first : UInt8}
    (h : text.dropWhile isSpace = first :: rest) : isSpace first = false := by
  have hhead := List.head?_dropWhile_not isSpace text
  rw [h] at hhead
  simpa using hhead

/-- The bound on the number of attributes leaves none out. -/
theorem scanFrom_eq {bound bound' : Nat} {text : Bytes} (h : text.length ≤ bound)
    (h' : text.length ≤ bound') : scanFrom bound text = scanFrom bound' text := by
  induction bound generalizing bound' text with
  | zero =>
    have hnil := List.eq_nil_of_length_eq_zero (Nat.le_zero.mp h)
    subst hnil
    cases bound' <;> rfl
  | succ bound ih =>
    cases bound' with
    | zero =>
      have hnil := List.eq_nil_of_length_eq_zero (Nat.le_zero.mp h')
      subst hnil
      rfl
    | succ bound' =>
      have hdrop := (List.dropWhile_suffix isSpace (l := text)).length_le
      unfold scanFrom
      cases htext : text.dropWhile isSpace with
      | nil => rfl
      | cons first rest =>
        dsimp only
        cases hone : one first rest with
        | none => rfl
        | some found =>
          obtain ⟨item, rest'⟩ := found
          have hlt := length_lt_of_one (isSpace_of_dropWhile htext) hone
          rw [htext] at hdrop
          have hrest : scanFrom bound rest' = scanFrom bound' rest' := ih (by omega) (by omega)
          dsimp only
          rw [hrest]

theorem scan_eq (text : Bytes) : scan text = match text.dropWhile isSpace with
    | [] => ⟨[], true⟩
    | first :: rest =>
      match one first rest with
      | none => ⟨[], false⟩
      | some (item, rest) => ⟨item :: (scan rest).items, (scan rest).complete⟩ := by
  have hdrop := (List.dropWhile_suffix isSpace (l := text)).length_le
  rw [scan, scanFrom_eq (Nat.le_refl _) (Nat.le_succ _)]
  unfold scanFrom
  cases htext : text.dropWhile isSpace with
  | nil => rfl
  | cons first rest =>
    dsimp only
    cases hone : one first rest with
    | none => rfl
    | some found =>
      obtain ⟨item, rest'⟩ := found
      have hlt := length_lt_of_one (isSpace_of_dropWhile htext) hone
      rw [htext] at hdrop
      have hrest : scanFrom text.length rest' = scan rest' :=
        scanFrom_eq (by omega) (Nat.le_refl _)
      dsimp only
      rw [hrest]

end AttributeList

/-- The bytes of an attribute in a tag, in double quotes. -/
def RawAttribute.bytes (item : RawAttribute) : Bytes :=
  0x20 :: (item.key ++ 0x3D :: 0x22 :: (item.value ++ [0x22]))

theorem RawAttribute.bytes_concat (item : RawAttribute) :
    item.bytes = (0x20 :: (item.key ++ 0x3D :: 0x22 :: item.value)) ++ [0x22] := by
  simp [RawAttribute.bytes]

/-- Whether an attribute declares no namespace. -/
def Scope.isPlain (key : Bytes) : Bool :=
  (declared? key).isNone

/-! ## Written attributes -/

namespace Writing

/-- The bytes of an attribute in a tag. -/
def attributeBytes (charset : Charset) (first : Attribute) : Bytes :=
  0x20 :: (Utf8.encode first.name ++
    0x3D :: 0x22 :: (Utf8.encode (escape charset true first.value) ++ [0x22]))

/-- What an attribute is taken off a tag as. -/
def rawAttribute (charset : Charset) (first : Attribute) : RawAttribute :=
  ⟨Utf8.encode first.name, Utf8.encode (escape charset true first.value)⟩

theorem attributeBytes_eq (charset : Charset) (first : Attribute) :
    attributeBytes charset first = (rawAttribute charset first).bytes := by
  rw [attributeBytes, RawAttribute.bytes, rawAttribute]

theorem encode_attributeText (charset : Charset) (name value : String) :
    Utf8.encode (attributeText charset name value) = attributeBytes charset ⟨name, value⟩ := by
  have hspace : Utf8.encode " " = [0x20] := rfl
  have hequals : Utf8.encode "=\"" = [0x3D, 0x22] := rfl
  have hquote : Utf8.encode "\"" = [0x22] := rfl
  unfold attributeText attributeBytes
  simp only [Utf8.encode_append, hspace, hequals, hquote, List.append_assoc, List.cons_append,
    List.nil_append]

end Writing

section Written
open AttributeList Writing
open Markup (isSpace isQuote cut)
variable {charset : Charset}

/-- An attribute in double quotes is taken off a tag. -/
theorem scan_bytes (item : RawAttribute) (key : IsKey item.key)
    (hquote : (0x22 : UInt8) ∉ item.value) (rest : Bytes) :
    scan (item.bytes ++ rest) = ⟨item :: (scan rest).items, (scan rest).complete⟩ := by
  obtain ⟨b, tail, hkey, hb, htail⟩ := key
  have hbytes : item.bytes ++ rest =
      0x20 :: b :: (tail ++ 0x3D :: 0x22 :: (item.value ++ 0x22 :: rest)) := by
    unfold RawAttribute.bytes
    rw [hkey]
    simp only [List.append_assoc, List.cons_append, List.nil_append]
  have hone : one b (tail ++ 0x3D :: 0x22 :: (item.value ++ 0x22 :: rest)) = some (item, rest) := by
    have htake : (tail ++ 0x3D :: 0x22 :: (item.value ++ 0x22 :: rest)).takeWhile isKey = tail := by
      rw [List.takeWhile_append_of_pos htail, List.takeWhile_cons_of_neg (by decide),
        List.append_nil]
    have hgap : ((tail ++ 0x3D :: 0x22 :: (item.value ++ 0x22 :: rest)).dropWhile isKey).dropWhile
        isSpace = 0x3D :: 0x22 :: (item.value ++ 0x22 :: rest) := by
      rw [List.dropWhile_append_of_pos htail, List.dropWhile_cons_of_neg (by decide),
        List.dropWhile_cons_of_neg (by decide)]
    rw [one_eq hgap, List.dropWhile_cons_of_neg (by decide), quotedValue_double,
      Markup.cut_of_notMem hquote, htake, ← hkey, Option.map_some]
  rw [scan_eq, hbytes, List.dropWhile_cons_of_pos (by decide),
    List.dropWhile_cons_of_neg (by simp [hb])]
  dsimp only
  rw [hone]

theorem scan_attributeBytes {first : Attribute} (key : IsKey (Utf8.encode first.name))
    (rest : Bytes) : scan (attributeBytes charset first ++ rest) =
      ⟨rawAttribute charset first :: (scan rest).items, (scan rest).complete⟩ := by
  have hquote : (0x22 : UInt8) ∉ Utf8.encode (escape charset true first.value) := fun hmem =>
    ((plain_of_mem_escape hmem).2.2 rfl).1 rfl
  rw [attributeBytes_eq, rawAttribute]
  generalize Utf8.encode (escape charset true first.value) = value at hquote ⊢
  exact scan_bytes ⟨Utf8.encode first.name, value⟩ key hquote rest

theorem scan_attributes {list : List Attribute} (keys : ∀ first ∈ list, IsKey (Utf8.encode first.name)) :
    scan (list.flatMap (attributeBytes charset)) = ⟨list.map (rawAttribute charset), true⟩ := by
  induction list with
  | nil => rfl
  | cons first rest ih =>
    rw [List.flatMap_cons, scan_attributeBytes (keys first List.mem_cons_self),
      ih fun other hmem => keys other (List.mem_cons_of_mem _ hmem)]
    rfl

theorem isKey_of_mem_scan {text : Bytes} {item : RawAttribute} (h : item ∈ (scan text).items) :
    IsKey item.key := by
  -- An attribute takes several bytes, so the induction is on the length of what is left.
  induction hlength : text.length using Nat.strongRecOn generalizing text with
  | _ length ih =>
    rw [scan_eq] at h
    have hdrop := (List.dropWhile_suffix isSpace (l := text)).length_le
    cases htext : text.dropWhile isSpace with
    | nil =>
      rw [htext] at h
      cases h
    | cons first rest =>
      rw [htext] at h hdrop
      dsimp only at h
      cases hone : one first rest with
      | none =>
        rw [hone] at h
        cases h
      | some found =>
        obtain ⟨item', rest'⟩ := found
        have hfirst := isSpace_of_dropWhile htext
        have hlt := length_lt_of_one hfirst hone
        rw [hone] at h
        rcases List.mem_cons.mp h with rfl | hmem
        · exact (one_eq_some hfirst hone).1
        · exact ih _ (by omega) hmem rfl

/-- A key that nothing follows is no attribute. -/
theorem one_eq_none {first : UInt8} {text : Bytes} (h : ∀ b ∈ text, isKey b = true) :
    one first text = none := by
  have hdrop : (text ++ []).dropWhile isKey = [].dropWhile isKey := List.dropWhile_append_of_pos h
  rw [List.append_nil] at hdrop
  unfold one
  rw [hdrop]
  rfl

/-- A bracket inside a written attribute is part of its name. Nothing complete stands before it. -/
theorem scan_of_bracket {first : Attribute} {text slash after : Bytes}
    (key : IsKey (Utf8.encode first.name)) (hslash : slash = [] ∨ slash = [0x2F])
    (hcut : attributeBytes charset first = text ++ slash ++ 0x3E :: after)
    (hcomplete : (scan text).complete = true) :
    0x3E ∈ Utf8.encode first.name ∧ (scan text).items = [] := by
  have hvalue : (0x3E : UInt8) ∉ 0x3D :: 0x22 ::
      (Utf8.encode (escape charset true first.value) ++ [0x22]) := by
    intro hmem
    simp only [List.mem_cons, List.mem_append, List.not_mem_nil, or_false] at hmem
    rcases hmem with hmem | hmem | hmem | hmem
    · cases hmem
    · cases hmem
    · exact (plain_of_mem_escape hmem).2.1 rfl
    · cases hmem
  unfold attributeBytes at hcut
  cases text with
  | nil => rcases hslash with rfl | rfl <;> cases hcut
  | cons b text =>
    obtain ⟨rfl, hname⟩ := List.cons.inj hcut
    rw [List.append_eq, List.append_eq] at hname
    rcases List.append_eq_append_iff.mp hname with ⟨c, -, hc⟩ | ⟨c, hc, hafter⟩
    · exact absurd (by rw [hc]; simp) hvalue
    · cases c with
      | nil => cases hafter
      | cons d c =>
        obtain ⟨rfl, -⟩ := List.cons.inj hafter
        refine ⟨by rw [hc]; simp, ?_⟩
        obtain ⟨k, tail, hkey, hk, htail⟩ := key
        rw [scan_eq, List.dropWhile_cons_of_pos (by decide)] at hcomplete ⊢
        cases text with
        | nil => rfl
        | cons k' text =>
          rw [hkey] at hc
          obtain ⟨rfl, htext⟩ := List.cons.inj hc
          rw [List.append_eq, List.append_eq] at htext
          have hall : ∀ b ∈ text, isKey b = true := by
            intro b hb
            exact htail b (by rw [htext]; simp [hb])
          rw [List.dropWhile_cons_of_neg (by simp [hk])] at hcomplete
          dsimp only at hcomplete
          rw [one_eq_none hall] at hcomplete
          cases hcomplete

/-- A slash behind a written attribute is not part of it. -/
theorem exists_of_append_slash {first : Attribute} {text slash behind : Bytes}
    (hslash : slash = [] ∨ slash = [0x2F])
    (h : text ++ slash = attributeBytes charset first ++ behind) :
    ∃ text', text = attributeBytes charset first ++ text' ∧ behind = text' ++ slash := by
  rcases hslash with rfl | rfl
  · exact ⟨behind, by rw [← h, List.append_nil], (List.append_nil _).symm⟩
  · rcases List.eq_nil_or_concat behind with rfl | ⟨text', last, rfl⟩
    · rw [List.append_nil, attributeBytes_eq, RawAttribute.bytes_concat] at h
      cases (List.append_inj' h rfl).2
    · rw [List.concat_eq_append, ← List.append_assoc] at h
      obtain ⟨htext, hlast⟩ := List.append_inj' h rfl
      exact ⟨text', htext, by rw [List.concat_eq_append, hlast]⟩

/-- In front of a bracket among attributes, fewer of them are read than there are. The slash
before the bracket is not part of what is read. -/
theorem countP_lt_of_cut {list : List Attribute} {text slash after final : Bytes}
    (keys : ∀ first ∈ list, IsKey (Utf8.encode first.name))
    (brackets : ∀ first ∈ list, 0x3E ∈ Utf8.encode first.name →
      Scope.isPlain (Utf8.encode first.name) = true)
    (hslash : slash = [] ∨ slash = [0x2F]) (hfinal : 0x3E ∉ final)
    (hcut : list.flatMap (attributeBytes charset) ++ final = text ++ slash ++ 0x3E :: after)
    (hcomplete : (scan text).complete = true) :
    (scan text).items.countP (fun item => Scope.isPlain item.key) <
      list.countP fun first => Scope.isPlain (Utf8.encode first.name) := by
  -- Attribute by attribute, up to the one in whose name the bracket stands: it is written and not
  -- read.
  induction list generalizing text with
  | nil =>
    rw [List.flatMap_nil, List.nil_append] at hcut
    exact absurd (by rw [hcut]; simp) hfinal
  | cons first rest ih =>
    have key := keys first List.mem_cons_self
    have hbehind {text' : Bytes} (htext : text = attributeBytes charset first ++ text')
        (hrest : rest.flatMap (attributeBytes charset) ++ final =
          text' ++ slash ++ 0x3E :: after) :
        (scan text).items.countP (fun item => Scope.isPlain item.key) <
          (first :: rest).countP fun first => Scope.isPlain (Utf8.encode first.name) := by
      rw [htext, scan_attributeBytes key] at hcomplete ⊢
      have hlt := ih (fun other hmem => keys other (List.mem_cons_of_mem _ hmem))
        (fun other hmem => brackets other (List.mem_cons_of_mem _ hmem)) hrest hcomplete
      rw [List.countP_cons, List.countP_cons]
      exact Nat.add_lt_add_right hlt _
    rw [List.flatMap_cons, List.append_assoc] at hcut
    rcases List.append_eq_append_iff.mp hcut with ⟨c, htext, hrest⟩ | ⟨c, hattribute, hafter⟩
    · obtain ⟨text', rfl, rfl⟩ := exists_of_append_slash hslash htext
      exact hbehind rfl hrest
    · cases c with
      | nil =>
        obtain ⟨text', rfl, hnil⟩ := exists_of_append_slash hslash
          ((List.append_nil _).symm.trans hattribute.symm |>.trans (List.append_nil _).symm)
        refine hbehind rfl ?_
        rw [← hnil]
        exact hafter.symm
      | cons b c =>
        obtain ⟨rfl, -⟩ := List.cons.inj hafter
        obtain ⟨hbracket, hitems⟩ := scan_of_bracket key hslash hattribute hcomplete
        have hplain := brackets first List.mem_cons_self hbracket
        rw [hitems, List.countP_nil, List.countP_pos_iff]
        exact ⟨first, List.mem_cons_self, hplain⟩

end Written

/-! ## The attributes of an element -/

namespace Parsing
open Scope (isPlain)

theorem required_eq_ok_iff {α : Type} {option : Option α} {value : α} :
    required option = .ok value ↔ option = some value := by
  cases option with
  | none => exact iff_of_false nofun nofun
  | some other =>
    constructor
    · rintro ⟨⟩
      rfl
    · rintro ⟨⟩
      rfl

theorem attributes_cons (seen : List Bytes) (item : RawAttribute) (rest : List RawAttribute) :
    attributes seen (item :: rest) =
      if item.key ∈ seen then grammarFault
      else if isPlain item.key then
        utf8 item.value >>= fun text => required (Reference.unescape text) >>= fun value =>
          utf8 item.key >>= fun name => attributes (item.key :: seen) rest >>= fun others =>
            pure (⟨name, value⟩ :: others)
      else attributes (item.key :: seen) rest := by
  conv => lhs; rw [attributes]
  by_cases hseen : item.key ∈ seen
  · rw [if_pos hseen, if_pos (by simpa using hseen)]
    rfl
  · rw [if_neg hseen, if_neg (by simpa using hseen)]
    unfold isPlain
    cases Scope.declared? item.key <;> rfl

/-- An attribute of a tag is one of the element, or it declares a namespace. No key occurs twice. -/
theorem attributes_cons_eq_ok_iff {seen : List Bytes} {item : RawAttribute}
    {rest : List RawAttribute} {list : List Attribute} :
    attributes seen (item :: rest) = .ok list ↔ item.key ∉ seen ∧
      ((isPlain item.key = false ∧ attributes (item.key :: seen) rest = .ok list) ∨
        isPlain item.key = true ∧ ∃ text value name others, utf8 item.value = .ok text ∧
          Reference.unescape text = some value ∧ utf8 item.key = .ok name ∧
            attributes (item.key :: seen) rest = .ok others ∧ list = ⟨name, value⟩ :: others) := by
  rw [attributes_cons]
  by_cases hseen : item.key ∈ seen
  · rw [if_pos hseen]
    exact iff_of_false nofun fun h => h.1 hseen
  · rw [if_neg hseen]
    cases hplain : isPlain item.key with
    | false => simp [hseen]
    | true =>
      simp only [bind_eq_ok_iff, required_eq_ok_iff, if_true, hseen, not_false_eq_true, true_and,
        Bool.true_eq_false, false_and, false_or]
      constructor
      · rintro ⟨text, htext, value, hvalue, name, hname, others, hothers, ⟨⟩⟩
        exact ⟨text, value, name, others, htext, hvalue, hname, hothers, rfl⟩
      · rintro ⟨text, value, name, others, htext, hvalue, hname, hothers, rfl⟩
        exact ⟨text, htext, value, hvalue, name, hname, others, hothers, rfl⟩

theorem encode_of_utf8 {bytes : Bytes} {text : String} (h : utf8 bytes = .ok text) :
    Utf8.encode text = bytes := by
  unfold utf8 at h
  split at h
  · rename_i hdecode
    cases h
    exact Utf8.encode_of_decode hdecode
  · cases h

/-- The attributes of an element have different names, which stand in its tag and declare no
namespace. -/
theorem attributes_eq_ok {seen : List Bytes} {items : List RawAttribute} {list : List Attribute}
    (h : attributes seen items = .ok list) :
    (∀ first ∈ list, Utf8.encode first.name ∉ seen ∧ isPlain (Utf8.encode first.name) = true ∧
      ∃ item ∈ items, item.key = Utf8.encode first.name) ∧
    (list.map (·.name)).Nodup ∧ list.length = items.countP fun item => isPlain item.key := by
  -- The keys that were seen grow with each attribute; that no name is among them makes the names
  -- distinct.
  induction items generalizing seen list with
  | nil =>
    cases h
    simp
  | cons item rest ih =>
    obtain ⟨hseen, ⟨hplain, hrest⟩ | ⟨hplain, text, value, name, others, -, -, hname, hrest, rfl⟩⟩ :=
      attributes_cons_eq_ok_iff.mp h
    · obtain ⟨hmem, hnodup, hlength⟩ := ih hrest
      refine ⟨fun first hfirst => ?_, hnodup, by rw [hlength, List.countP_cons_of_neg (by simp [hplain])]⟩
      obtain ⟨hnew, hfree, found, hfound, hkey⟩ := hmem first hfirst
      exact ⟨fun hold => hnew (List.mem_cons_of_mem _ hold), hfree, found,
        List.mem_cons_of_mem _ hfound, hkey⟩
    · obtain ⟨hmem, hnodup, hlength⟩ := ih hrest
      have hbytes := encode_of_utf8 hname
      refine ⟨fun first hfirst => ?_, ?_, ?_⟩
      · rcases List.mem_cons.mp hfirst with rfl | hfirst
        · rw [hbytes]
          exact ⟨hseen, hplain, item, List.mem_cons_self, rfl⟩
        · obtain ⟨hnew, hfree, found, hfound, hkey⟩ := hmem first hfirst
          exact ⟨fun hold => hnew (List.mem_cons_of_mem _ hold), hfree, found,
            List.mem_cons_of_mem _ hfound, hkey⟩
      · rw [List.map_cons, List.nodup_cons]
        refine ⟨fun hagain => ?_, hnodup⟩
        obtain ⟨first, hfirst, hsame⟩ := List.mem_map.mp hagain
        have hnew := (hmem first hfirst).1
        rw [hsame, hbytes] at hnew
        exact hnew List.mem_cons_self
      · rw [List.countP_cons_of_pos (by simpa using hplain), List.length_cons, hlength]

/-- The keys that have occurred do not matter where they do not occur again. -/
theorem attributes_of_seen {seen seen' : List Bytes} {items : List RawAttribute}
    {list : List Attribute} (h : attributes seen items = .ok list)
    (hseen : ∀ key ∈ seen', key ∈ seen ∨ ∀ item ∈ items, item.key ≠ key) :
    attributes seen' items = .ok list := by
  induction items generalizing seen seen' list with
  | nil => exact h
  | cons item rest ih =>
    obtain ⟨hnew, hrest⟩ := attributes_cons_eq_ok_iff.mp h
    have hnew' : item.key ∉ seen' := fun hmem =>
      (hseen _ hmem).elim hnew fun hfresh => hfresh item List.mem_cons_self rfl
    have hothers {list : List Attribute} (h : attributes (item.key :: seen) rest = .ok list) :
        attributes (item.key :: seen') rest = .ok list := by
      refine ih h fun key hkey => ?_
      rcases List.mem_cons.mp hkey with rfl | hkey
      · exact .inl List.mem_cons_self
      · exact (hseen key hkey).imp (List.mem_cons_of_mem _) fun hfresh other hother =>
          hfresh other (List.mem_cons_of_mem _ hother)
    refine attributes_cons_eq_ok_iff.mpr ⟨hnew', ?_⟩
    rcases hrest with ⟨hplain, hrest⟩ | ⟨hplain, text, value, name, others, htext, hvalue, hname,
      hrest, rfl⟩
    · exact .inl ⟨hplain, hothers hrest⟩
    · exact .inr ⟨hplain, text, value, name, others, htext, hvalue, hname, hothers hrest, rfl⟩

/-- A plain key that no attribute of the element has is not among the keys of its tag. -/
theorem key_ne_of_notMem {seen : List Bytes} {items : List RawAttribute} {list : List Attribute}
    {name : String} (h : attributes seen items = .ok list)
    (hplain : isPlain (Utf8.encode name) = true) (hnew : name ∉ list.map (·.name)) :
    ∀ item ∈ items, item.key ≠ Utf8.encode name := by
  induction items generalizing seen list with
  | nil => exact nofun
  | cons item rest ih =>
    intro other hother hkey
    obtain ⟨-, ⟨hdeclares, hrest⟩ | ⟨-, text, value, first, others, -, -, hfirst, hrest, rfl⟩⟩ :=
      attributes_cons_eq_ok_iff.mp h
    · rcases List.mem_cons.mp hother with rfl | hother
      · rw [hkey, hplain] at hdeclares
        cases hdeclares
      · exact ih hrest hnew other hother hkey
    · rw [List.map_cons, List.mem_cons, not_or] at hnew
      rcases List.mem_cons.mp hother with rfl | hother
      · rw [hkey, utf8_encode] at hfirst
        exact hnew.1 (Except.ok.inj hfirst)
      · exact ih hrest hnew.2 other hother hkey

/-- Written attributes are read again, up to declarations. -/
theorem attributes_rawAttribute (charset : Charset) {seen : List Bytes} {list : List Attribute}
    (hnew : ∀ first ∈ list, Utf8.encode first.name ∉ seen) (hnodup : (list.map (·.name)).Nodup) :
    attributes seen (list.map (Writing.rawAttribute charset)) =
      .ok (list.filter fun first => isPlain (Utf8.encode first.name)) := by
  -- The names in front become keys that were seen, which the others must differ from.
  induction list generalizing seen with
  | nil => rfl
  | cons first rest ih =>
    rw [List.map_cons, List.nodup_cons] at hnodup
    have hrest : attributes (Utf8.encode first.name :: seen)
        (rest.map (Writing.rawAttribute charset)) =
          .ok (rest.filter fun first => isPlain (Utf8.encode first.name)) := by
      refine ih (fun other hother hmem => ?_) hnodup.2
      rcases List.mem_cons.mp hmem with hsame | hold
      · refine hnodup.1 (List.mem_map.mpr ⟨other, hother, ?_⟩)
        exact Utf8.encode_injective hsame
      · exact hnew other (List.mem_cons_of_mem _ hother) hold
    rw [List.map_cons, attributes_cons_eq_ok_iff]
    refine ⟨hnew first List.mem_cons_self, ?_⟩
    cases hplain : isPlain (Utf8.encode first.name) with
    | false =>
      rw [List.filter_cons_of_neg (by simp [hplain])]
      exact .inl ⟨hplain, hrest⟩
    | true =>
      rw [List.filter_cons_of_pos (by simpa using hplain)]
      refine .inr ⟨hplain, Writing.escape charset true first.value, first.value, first.name, _,
        ?_, Writing.unescape_escape charset true first.value, ?_, hrest, rfl⟩
      · rw [Writing.rawAttribute, utf8_encode]
      · rw [Writing.rawAttribute, utf8_encode]

end Parsing

end BinaryXml
