import BinaryXml.Proofs.Xml.Grammar
import BinaryXml.Proofs.Text.Utf8

/-! # Comments that are read as they are written

* `IsComment`: a text without `--` that does not end in `-`.
* `cut_doubled`: the first `-->` behind such a text is the one that was written.
* `starts_comment`: the comment is one piece.
-/

namespace BinaryXml

set_option autoImplicit false

/-- A text that may stand in a comment. -/
def IsComment (text : String) : Prop :=
  ¬ ['-', '-'] <:+: text.toList ∧ text.toList.getLast? ≠ some '-'

namespace Markup

/-- The search passes over bytes with which the delimiter does not begin. -/
theorem cut_append_of_notMem {b : UInt8} {delimiter front : Bytes} (h : b ∉ front)
    (text : Bytes) : cut (b :: delimiter) (front ++ text) =
      (cut (b :: delimiter) text).map fun found => (front ++ found.1, found.2) := by
  induction front with
  | nil => simp
  | cons first front ih =>
    rw [List.mem_cons, not_or] at h
    obtain ⟨hfirst, hfront⟩ := h
    have hprefix : (b :: delimiter).isPrefixOf (first :: (front ++ text)) = false := by
      simp [List.isPrefixOf, hfirst]
    rw [List.cons_append, cut, hprefix, ih hfront]
    cases cut (b :: delimiter) text <;> rfl

/-- A delimiter in ASCII that stands in the bytes of characters stands in these characters. -/
theorem prefix_of_encodeChars {delimiter chars : List Char} {more : Bytes}
    (hascii : ∀ d ∈ delimiter, d.toNat < 0x80) (hlength : delimiter.length ≤ chars.length)
    (h : Utf8.encodeChars delimiter <+: Utf8.encodeChars chars ++ more) : delimiter <+: chars := by
  -- A byte of ASCII is a character of its own, so that the characters agree one by one.
  induction delimiter generalizing chars with
  | nil => exact List.nil_prefix
  | cons d delimiter ih =>
    cases chars with
    | nil => simp at hlength
    | cons c chars =>
      have hsmall := hascii d List.mem_cons_self
      have hd := Utf8.encodeChar_of_ascii hsmall
      obtain ⟨b, others, hc⟩ : ∃ b others, String.utf8EncodeChar c = b :: others :=
        List.exists_cons_of_ne_nil (by simp)
      have hbytes (c : Char) (chars : List Char) : Utf8.encodeChars (c :: chars) =
          String.utf8EncodeChar c ++ Utf8.encodeChars chars := rfl
      rw [hbytes, hbytes, hd, hc, List.cons_append, List.cons_append, List.cons_append,
        List.cons_prefix_cons] at h
      obtain ⟨hb, h⟩ := h
      obtain rfl : c = d := (Utf8.ofNat_mem_encodeChar_iff hsmall c).mp
        (by rw [hc, hb]; exact List.mem_cons_self)
      rw [hd] at hc
      obtain ⟨-, rfl⟩ := List.cons.inj hc
      exact List.cons_prefix_cons.mpr ⟨rfl, ih (fun d hd => hascii d (List.mem_cons_of_mem _ hd))
        (by simpa using hlength) h⟩

/-- The first delimiter is the one that was written, if it does not begin in what is before it. -/
theorem cut_encodeChars (d : Char) (delimiter : List Char) {chars : List Char}
    (hascii : ∀ c ∈ d :: delimiter, c.toNat < 0x80)
    (hnone : ¬ d :: delimiter <:+: chars ++ (d :: delimiter).dropLast) (rest : Bytes) :
    cut (Utf8.encodeChars (d :: delimiter))
      (Utf8.encodeChars chars ++ (Utf8.encodeChars (d :: delimiter) ++ rest)) =
        some (Utf8.encodeChars chars, rest) := by
  induction chars with
  | nil => exact cut_self _ rest
  | cons c chars ih =>
    have hothers := ih fun hwithin => hnone (hwithin.trans (List.suffix_cons c _).isInfix)
    have hd := hascii d List.mem_cons_self
    have hbytes (c : Char) (chars : List Char) : Utf8.encodeChars (c :: chars) =
        String.utf8EncodeChar c ++ Utf8.encodeChars chars := rfl
    have hdelimiter : Utf8.encodeChars (d :: delimiter) =
        UInt8.ofNat d.toNat :: Utf8.encodeChars delimiter := by
      rw [hbytes, Utf8.encodeChar_of_ascii hd]
      rfl
    by_cases hc : c = d
    · subst hc
      have hfront : ¬ (Utf8.encodeChars (c :: delimiter)).isPrefixOf (UInt8.ofNat c.toNat ::
          (Utf8.encodeChars chars ++ (Utf8.encodeChars (c :: delimiter) ++ rest))) = true := by
        intro hbegins
        -- The delimiter is shorter than what follows up to the end of the one that was written.
        have htext : UInt8.ofNat c.toNat ::
            (Utf8.encodeChars chars ++ (Utf8.encodeChars (c :: delimiter) ++ rest)) =
              Utf8.encodeChars (c :: chars ++ (c :: delimiter)) ++ rest := by
          rw [Utf8.encodeChars_append, hbytes c chars, Utf8.encodeChar_of_ascii hd]
          simp only [List.append_assoc, List.singleton_append]
          rfl
        rw [List.isPrefixOf_iff_prefix, htext] at hbegins
        have hchars := prefix_of_encodeChars hascii (by simp; omega) hbegins
        refine hnone (List.IsPrefix.isInfix ?_)
        exact List.prefix_of_prefix_length_le hchars
          ((List.prefix_append_right_inj (c :: chars)).mpr (List.dropLast_prefix _)) (by simp)
      rw [hbytes c chars, Utf8.encodeChar_of_ascii hd, List.append_assoc, List.singleton_append]
      unfold cut
      rw [if_neg hfront, hothers]
      rfl
    · have hmem : UInt8.ofNat d.toNat ∉ String.utf8EncodeChar c :=
        fun hmem => hc ((Utf8.ofNat_mem_encodeChar_iff hd c).mp hmem)
      rw [hdelimiter, hbytes, List.append_assoc, cut_append_of_notMem hmem, ← hdelimiter, hothers]
      rfl

/-- A delimiter such as `-->` is found where it was written, if it does not stand in what is before
it. -/
theorem cut_doubled {d : Char} {chars : List Char} (hascii : d.toNat < 0x80) (hd : d ≠ '>')
    (hnone : ¬ [d, d, '>'] <:+: chars) (rest : Bytes) :
    cut (Utf8.encodeChars [d, d, '>'])
      (Utf8.encodeChars chars ++ (Utf8.encodeChars [d, d, '>'] ++ rest)) =
        some (Utf8.encodeChars chars, rest) := by
  refine cut_encodeChars d [d, '>'] (by simp [hascii]) (fun hwithin => ?_) rest
  -- None ends in the two characters that stand before its last one.
  have hfront : chars ++ [d, d, '>'].dropLast = chars ++ [d] ++ [d] := by simp
  have hlast (front : List Char) : ¬ [d, d, '>'] <:+ front ++ [d] := by
    rintro ⟨before, heq⟩
    have hends := congrArg List.getLast? heq
    simp [Ne.symm hd] at hends
  rw [hfront, List.infix_concat_iff, List.infix_concat_iff] at hwithin
  rcases hwithin with h | h | h
  · exact hlast _ h
  · exact hlast _ h
  · exact hnone h

end Markup

namespace Parsing

theorem starts_comment {text : String} (h : IsComment text) (tail : Bytes) :
    Starts (Utf8.encode "<!--" ++ (Utf8.encode text ++ (Utf8.encode "-->" ++ tail)))
      (.comment (Utf8.encode text)) tail := by
  have hopening : Utf8.encode "<!--" = [0x3C, 0x21, 0x2D, 0x2D] := rfl
  have hnone : ¬ ['-', '-', '>'] <:+: text.toList := fun hwithin =>
    h.1 ((List.prefix_append ['-', '-'] ['>']).isInfix.trans hwithin)
  have hcut : Markup.cut (Markup.ascii "-->") (Utf8.encode text ++ (Utf8.encode "-->" ++ tail)) =
      some (Utf8.encode text, tail) :=
    Markup.cut_doubled (by decide) (by decide) hnone tail
  rw [hopening]
  generalize Utf8.encode text ++ (Utf8.encode "-->" ++ tail) = inner at hcut
  refine ⟨List.cons_ne_nil _ _, ?_⟩
  change Markup.declared (0x2D :: 0x2D :: inner) = _
  have hafter : Markup.after (Markup.ascii "--") (0x2D :: 0x2D :: inner) = some inner := rfl
  simp only [Markup.declared, hafter, hcut, Option.bind_eq_bind, Option.bind_some]

end Parsing

end BinaryXml
