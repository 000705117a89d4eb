import BinaryXml.Proofs.Xml.Grammar

/-! # Pieces and elements do not depend on what follows them

* `Markup.next_front`: a piece does not, where the byte behind it stays the same.
* `Parsing.content_front` and `Parsing.isElement_front`: neither do the content of an element up to
  its end tag, and an element.
-/

namespace BinaryXml

set_option autoImplicit false

namespace Markup

/-! ## Pieces -/

theorem bracketed_front {text rest : Bytes} {piece : Markup}
    (h : bracketed text = some (piece, rest)) :
    ∃ bytes, text = bytes ++ rest ∧ Front bracketed bytes piece := by
  unfold bracketed at h
  split at h
  · obtain ⟨bytes, rfl, hfront, -⟩ := declared_front h
    exact ⟨0x21 :: bytes, rfl, hfront⟩
  · obtain ⟨bytes, rfl, hfront, -⟩ := instructed_front h
    exact ⟨0x3F :: bytes, rfl, hfront⟩
  · obtain ⟨⟨content, behind⟩, hcut, heq⟩ := Option.map_eq_some_iff.mp h
    cases heq
    obtain ⟨rfl, -⟩ := cutTag_eq_some_iff.mp hcut
    refine ⟨0x2F :: (content ++ [0x3E]), by simp, fun more => ?_⟩
    change (cutTag none (content ++ [0x3E] ++ more)).map _ = _
    rw [cutTag_front hcut]
    rfl
  · rename_i hdeclared hinstructed hclosing
    obtain ⟨⟨content, behind⟩, hcut, heq⟩ := Option.map_eq_some_iff.mp h
    cases heq
    obtain ⟨rfl, hquote⟩ := cutTag_eq_some_iff.mp hcut
    refine ⟨content ++ [0x3E], by simp, fun more => ?_⟩
    have hnext := @next_of_content content more (fun b hb => ?_) hquote
    · rw [List.append_assoc]
      exact hnext
    · obtain ⟨inner, rfl⟩ := List.head?_eq_some_iff.mp hb
      refine ⟨?_, ?_, ?_⟩
      · rintro rfl
        exact hdeclared _ rfl
      · rintro rfl
        exact hclosing _ rfl
      · rintro rfl
        exact hinstructed _ rfl

/-- Character data ends where markup starts. -/
theorem next_text {first : UInt8} {bytes more : Bytes} (hfirst : isText first = true)
    (hbytes : ∀ b ∈ bytes, isText b = true) (hmore : ∀ b, more.head? = some b → isText b = false) :
    next (first :: (bytes ++ more)) = some (.text (first :: bytes), more) := by
  have hstop : more.takeWhile isText = [] ∧ more.dropWhile isText = more := by
    cases more with
    | nil => exact ⟨rfl, rfl⟩
    | cons b more =>
      have hb := hmore b rfl
      exact ⟨List.takeWhile_cons_of_neg (by simp [hb]), List.dropWhile_cons_of_neg (by simp [hb])⟩
  unfold next
  split
  · rename_i heq
    cases heq
    cases hfirst
  · rename_i heq
    cases heq
    cases hfirst
  · rw [List.takeWhile_cons_of_pos hfirst, List.dropWhile_cons_of_pos hfirst,
      List.takeWhile_append_of_pos hbytes, List.dropWhile_append_of_pos hbytes, hstop.1, hstop.2,
      List.append_nil]

/-- A piece does not depend on what follows it, where the next byte stays the same. -/
theorem next_front {b : UInt8} {text rest : Bytes} {piece : Markup}
    (h : next (b :: text) = some (piece, rest)) : ∃ bytes, text = bytes ++ rest ∧
      ∀ more, more.head? = rest.head? → next (b :: (bytes ++ more)) = some (piece, more) := by
  unfold next at h
  split at h
  · rename_i heq
    cases heq
    obtain ⟨bytes, hbytes, hfront⟩ := bracketed_front h
    exact ⟨bytes, hbytes, fun more _ => hfront more⟩
  · rename_i heq
    cases heq
    obtain ⟨bytes, hbytes, hfront, -⟩ := referred_front h
    exact ⟨bytes, hbytes, fun more _ => hfront more⟩
  · rename_i hbracket hamp
    have hb : isText b = true := by
      have hopen : b ≠ 0x3C := by
        rintro rfl
        exact hbracket _ rfl
      have hand : b ≠ 0x26 := by
        rintro rfl
        exact hamp _ rfl
      simp [isText, hopen, hand]
    rw [List.takeWhile_cons_of_pos hb, List.dropWhile_cons_of_pos hb] at h
    cases h
    refine ⟨text.takeWhile isText, List.takeWhile_append_dropWhile.symm, fun more hmore => ?_⟩
    refine next_text hb (fun d hd => List.all_eq_true.mp List.all_takeWhile d hd) fun d hd => ?_
    rw [hmore] at hd
    have hhead := List.head?_dropWhile_not isText text
    rw [hd] at hhead
    simpa using hhead

end Markup

/-! ## Content and elements -/

namespace Parsing

theorem Starts.front {text rest : Bytes} {piece : Markup} (h : Starts text piece rest) :
    ∃ bytes, bytes ≠ [] ∧ text = bytes ++ rest ∧
      ∀ more, more.head? = rest.head? → Starts (bytes ++ more) piece more := by
  obtain ⟨hne, hnext⟩ := h
  obtain ⟨b, text, rfl⟩ := List.exists_cons_of_ne_nil hne
  obtain ⟨bytes, rfl, hfront⟩ := Markup.next_front hnext
  exact ⟨b :: bytes, List.cons_ne_nil _ _, rfl, fun more hmore =>
    ⟨List.cons_ne_nil _ _, hfront more hmore⟩⟩

theorem Starts.front_of_tag {text rest : Bytes} {piece : Markup} (h : Starts text piece rest)
    (htag : piece.isTag = true) : ∃ bytes, bytes ≠ [] ∧ text = bytes ++ rest ∧
      ∀ more, Starts (bytes ++ more) piece more := by
  obtain ⟨hne, hnext⟩ := h
  obtain ⟨b, text, rfl⟩ := List.exists_cons_of_ne_nil hne
  have hshape := Markup.next_shape hnext
  generalize hbytes : b :: text = bytes at hshape
  cases hshape with
  | @tag content rest begins quote =>
    refine ⟨0x3C :: (content ++ [0x3E]), List.cons_ne_nil _ _, by simp, fun more => ?_⟩
    rw [List.cons_append, List.append_assoc]
    exact ⟨List.cons_ne_nil _ _, Markup.next_of_content begins quote⟩
  | @closing content rest quote =>
    refine ⟨0x3C :: 0x2F :: (content ++ [0x3E]), List.cons_ne_nil _ _, by simp, fun more => ?_⟩
    rw [List.cons_append, List.cons_append, List.append_assoc]
    exact ⟨List.cons_ne_nil _ _, Markup.next_of_closing quote⟩
  | bracket other =>
    rw [htag] at other
    cases other
  | plain noBracket other =>
    rw [htag] at other
    cases other

section Fronts
variable {context : Context} {scope : Scope} {depth : Nat} {opened : Open}
  {text rest last : Bytes} {nodes : List Node}

theorem head?_append_of_ne {bytes : Bytes} (h : bytes ≠ []) (more more' : Bytes) :
    (bytes ++ more).head? = (bytes ++ more').head? := by
  obtain ⟨b, bytes, rfl⟩ := List.exists_cons_of_ne_nil h
  rfl

theorem content_front (h : Content context scope depth opened text nodes last) :
    ∃ bytes, bytes ≠ [] ∧ text = bytes ++ last ∧
      ∀ more, Content context scope depth opened (bytes ++ more) nodes more := by
  -- What follows matters to character data only, which goes up to the next byte of markup. Behind a
  -- leaf there are more bytes of the content, so that this byte stays the same.
  induction h with
  | leaf starts single _ ih =>
    obtain ⟨first, hfirst, rfl, hstarts⟩ := starts.front
    obtain ⟨bytes, hne, rfl, hcontent⟩ := ih
    refine ⟨first ++ bytes, by simp [hne], by rw [List.append_assoc], fun more => ?_⟩
    rw [List.append_assoc]
    exact .leaf (hstarts _ (head?_append_of_ne hne more _)) single (hcontent more)
  | declaration starts _ ih =>
    obtain ⟨first, hfirst, rfl, hstarts⟩ := starts.front
    obtain ⟨bytes, hne, rfl, hcontent⟩ := ih
    refine ⟨first ++ bytes, by simp [hne], by rw [List.append_assoc], fun more => ?_⟩
    rw [List.append_assoc]
    exact .declaration (hstarts _ (head?_append_of_ne hne more _)) (hcontent more)
  | closing starts =>
    obtain ⟨first, hfirst, rfl, hstarts⟩ := starts.front_of_tag rfl
    exact ⟨first, hfirst, rfl, fun more => .closing (hstarts more)⟩
  | empty starts bindings start _ ih =>
    obtain ⟨first, hfirst, rfl, hstarts⟩ := starts.front_of_tag rfl
    obtain ⟨bytes, hne, rfl, hcontent⟩ := ih
    refine ⟨first ++ bytes, by simp [hne], by rw [List.append_assoc], fun more => ?_⟩
    rw [List.append_assoc]
    exact .empty (hstarts _) bindings start (hcontent more)
  | opening starts bindings start _ _ ihContent ih =>
    obtain ⟨first, hfirst, rfl, hstarts⟩ := starts.front_of_tag rfl
    obtain ⟨inside, hinside, rfl, hpieces⟩ := ihContent
    obtain ⟨bytes, hne, rfl, hcontent⟩ := ih
    refine ⟨first ++ (inside ++ bytes), by simp [hne], by simp only [List.append_assoc],
      fun more => ?_⟩
    rw [List.append_assoc, List.append_assoc]
    exact .opening (hstarts _) bindings start (hpieces _) (hcontent more)

theorem isElement_front {element : Element}
    (h : IsElement context scope depth text element last) :
    ∃ bytes, bytes ≠ [] ∧ text = bytes ++ last ∧
      ∀ more, IsElement context scope depth (bytes ++ more) element more := by
  cases h with
  | empty starts bindings start =>
    obtain ⟨first, hfirst, rfl, hstarts⟩ := starts.front_of_tag rfl
    exact ⟨first, hfirst, rfl, fun more => .empty (hstarts more) bindings start⟩
  | opening starts bindings start content =>
    obtain ⟨first, hfirst, rfl, hstarts⟩ := starts.front_of_tag rfl
    obtain ⟨inside, hinside, rfl, hpieces⟩ := content_front content
    refine ⟨first ++ inside, by simp [hinside], by rw [List.append_assoc], fun more => ?_⟩
    rw [List.append_assoc]
    exact .opening (hstarts _) bindings start (hpieces more)

end Fronts

end Parsing

end BinaryXml
