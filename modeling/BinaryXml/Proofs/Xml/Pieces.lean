import BinaryXml.Xml.Markup

/-! # Pieces of an XML text

* `quoteAfter`: the quote that is open behind some bytes of a tag.
* `cutTag_eq_some_iff`: a tag ends at the first bracket that no quote encloses.
* `Front`: some bytes that a reader takes off any text that they stand in front of.
* `declared_front` and `instructed_front`: a declaration is such a front.
* `next_shape`: which bytes a piece takes off a text.
-/

namespace BinaryXml.Markup

set_option autoImplicit false

/-! ## Searching -/

theorem cut_eq_some {delimiter text before behind : Bytes}
    (h : cut delimiter text = some (before, behind)) : text = before ++ delimiter ++ behind := by
  induction text generalizing before with
  | nil =>
    unfold cut at h
    split at h
    · rename_i hempty
      cases h
      rw [List.isEmpty_iff.mp hempty]
      rfl
    · cases h
  | cons b rest ih =>
    unfold cut at h
    split at h
    · rename_i hfront
      obtain ⟨tail, htail⟩ := List.isPrefixOf_iff_prefix.mp hfront
      cases h
      rw [← htail, List.drop_left, List.nil_append]
    · obtain ⟨⟨found, rest'⟩, hcut, heq⟩ := Option.map_eq_some_iff.mp h
      cases heq
      rw [ih hcut]
      rfl

theorem cut_of_notMem {quote : UInt8} {value : Bytes} (h : quote ∉ value) (rest : Bytes) :
    cut [quote] (value ++ quote :: rest) = some (value, rest) := by
  induction value with
  | nil => simp [cut]
  | cons b value ih =>
    rw [List.mem_cons, not_or] at h
    rw [List.cons_append]
    unfold cut
    rw [if_neg (by simpa using h.1), ih h.2]
    rfl

theorem after_eq_some {front text rest : Bytes} (h : after front text = some rest) :
    text = front ++ rest := by
  unfold after at h
  split at h
  · rename_i hfront
    obtain ⟨tail, htail⟩ := List.isPrefixOf_iff_prefix.mp hfront
    cases h
    rw [← htail, List.drop_left]
  · cases h

/-- A bracket at no depth closes the declaration, and every other byte comes before what the rest of
the text is cut into. -/
theorem cutBalanced_cons (depth : Nat) (b : UInt8) :
    (b = 0x3E ∧ ∀ text, cutBalanced depth (b :: text) = some ([], text)) ∨
    ∃ next, ∀ text, cutBalanced depth (b :: text) =
      (cutBalanced next text).map fun found => (b :: found.1, found.2) := by
  by_cases hopen : b = 0x3C
  · exact .inr ⟨depth + 1, fun text => by simp only [cutBalanced, if_pos hopen]⟩
  by_cases hclose : b = 0x3E
  · cases depth with
    | zero => exact .inl ⟨hclose, fun text => by simp only [cutBalanced, if_neg hopen, if_pos hclose]⟩
    | succ depth =>
      exact .inr ⟨depth, fun text => by simp only [cutBalanced, if_neg hopen, if_pos hclose]⟩
  · exact .inr ⟨depth, fun text => by simp only [cutBalanced, if_neg hopen, if_neg hclose]⟩

theorem cutBalanced_eq_some {depth : Nat} {text before behind : Bytes}
    (h : cutBalanced depth text = some (before, behind)) : text = before ++ 0x3E :: behind := by
  induction text generalizing depth before with
  | nil => cases h
  | cons b text ih =>
    rcases cutBalanced_cons depth b with ⟨rfl, hclose⟩ | ⟨next, hstep⟩
    · rw [hclose] at h
      cases h
      rfl
    · rw [hstep] at h
      obtain ⟨⟨found, rest⟩, hcut, heq⟩ := Option.map_eq_some_iff.mp h
      cases heq
      rw [ih hcut]
      rfl

/-! ## Quotes -/

/-- The quote that is open behind some bytes of a tag, where one may be open before them; nothing
if a bracket closes the tag among them. -/
def quoteAfter : Option UInt8 → Bytes → Option (Option UInt8)
  | quote, [] => some quote
  | none, b :: rest =>
    if b = 0x3E then none else quoteAfter (if isQuote b then some b else none) rest
  | some quote, b :: rest => quoteAfter (if b = quote then none else some quote) rest

theorem quoteAfter_none_cons (b : UInt8) (rest : Bytes) : quoteAfter none (b :: rest) =
    if b = 0x3E then none else quoteAfter (if isQuote b then some b else none) rest := rfl

theorem quoteAfter_some_cons (quote b : UInt8) (rest : Bytes) : quoteAfter (some quote) (b :: rest) =
    quoteAfter (if b = quote then none else some quote) rest := rfl

theorem quoteAfter_append (quote : Option UInt8) (front back : Bytes) :
    quoteAfter quote (front ++ back) = (quoteAfter quote front).bind (quoteAfter · back) := by
  induction front generalizing quote with
  | nil => cases quote <;> rfl
  | cons b front ih =>
    rw [List.cons_append]
    cases quote with
    | none =>
      rw [quoteAfter_none_cons, quoteAfter_none_cons]
      split
      · rfl
      · exact ih _
    | some quote =>
      rw [quoteAfter_some_cons, quoteAfter_some_cons]
      exact ih _

theorem quoteAfter_of_plain (quote : Option UInt8) {bytes : Bytes}
    (h : ∀ b ∈ bytes, b ≠ 0x22 ∧ b ≠ 0x27 ∧ b ≠ 0x3E) (hquote : ∀ b ∈ quote, isQuote b) :
    quoteAfter quote bytes = some quote := by
  induction bytes with
  | nil => cases quote <;> rfl
  | cons b rest ih =>
    obtain ⟨hdouble, hsingle, hclose⟩ := h b List.mem_cons_self
    have hrest := ih fun other hmem => h other (List.mem_cons_of_mem _ hmem)
    have hplain : isQuote b = false := by simp [isQuote, hdouble, hsingle]
    cases quote with
    | none =>
      unfold quoteAfter
      rw [if_neg hclose, hplain]
      exact hrest
    | some quote =>
      have hne : b ≠ quote := by
        rintro rfl
        rw [hquote b rfl] at hplain
        cases hplain
      unfold quoteAfter
      rw [if_neg hne]
      exact hrest

theorem isQuote_of_quoteAfter {quote quote' : Option UInt8} {bytes : Bytes}
    (hquote : ∀ b ∈ quote, isQuote b) (h : quoteAfter quote bytes = some quote') :
    ∀ b ∈ quote', isQuote b := by
  induction bytes generalizing quote with
  | nil =>
    unfold quoteAfter at h
    cases h
    exact hquote
  | cons b rest ih =>
    cases quote with
    | none =>
      unfold quoteAfter at h
      split at h
      · cases h
      · refine ih ?_ h
        split
        · rename_i hb
          rintro _ ⟨⟩
          exact hb
        · rintro _ ⟨⟩
    | some quote =>
      unfold quoteAfter at h
      refine ih ?_ h
      split
      · rintro _ ⟨⟩
      · exact hquote

/-- A byte that does not end the tag comes before what the rest of the text is cut into. -/
theorem further_eq_some_iff {quote next : Option UInt8} {b : UInt8} {rest before behind : Bytes}
    (hrest : ∀ before, cutTag next rest = some (before, behind) ↔
      rest = before ++ 0x3E :: behind ∧ quoteAfter next before = some none)
    (hstep : ∀ before, quoteAfter quote (b :: before) = quoteAfter next before)
    (hb : quote = none → b ≠ 0x3E) :
    ((cutTag next rest).map fun (before, behind) => (b :: before, behind)) =
      some (before, behind) ↔
        b :: rest = before ++ 0x3E :: behind ∧ quoteAfter quote before = some none := by
  constructor
  · intro h
    obtain ⟨⟨found, rest'⟩, hcut, heq⟩ := Option.map_eq_some_iff.mp h
    cases heq
    obtain ⟨htext, hquote⟩ := (hrest found).mp hcut
    exact ⟨by rw [htext]; rfl, (hstep found).trans hquote⟩
  · rintro ⟨htext, hquote⟩
    cases before with
    | nil =>
      cases htext
      cases quote with
      | none => exact absurd rfl (hb rfl)
      | some quote => cases hquote
    | cons first before =>
      cases htext
      rw [(hrest before).mpr ⟨rfl, (hstep before).symm.trans hquote⟩]
      rfl

/-- A tag ends at the first bracket that no quote encloses. -/
theorem cutTag_eq_some_iff {quote : Option UInt8} {text before behind : Bytes} :
    cutTag quote text = some (before, behind) ↔
      text = before ++ 0x3E :: behind ∧ quoteAfter quote before = some none := by
  induction text generalizing quote before with
  | nil => simp [cutTag]
  | cons b rest ih =>
    cases quote with
    | none =>
      unfold cutTag
      split
      · rename_i hclose
        subst hclose
        constructor
        · rintro ⟨⟩
          exact ⟨rfl, rfl⟩
        · rintro ⟨htext, hquote⟩
          cases before with
          | nil =>
            cases htext
            rfl
          | cons first before =>
            cases htext
            simp [quoteAfter] at hquote
      · rename_i hclose
        have hstep (before : Bytes) : quoteAfter none (b :: before) =
            quoteAfter (if isQuote b then some b else none) before := by
          rw [quoteAfter_none_cons, if_neg hclose]
        exact further_eq_some_iff (fun _ => ih) hstep fun _ => hclose
    | some quote =>
      unfold cutTag
      exact further_eq_some_iff (fun _ => ih) (quoteAfter_some_cons quote b) nofun

/-! ## Texts in front of others -/

/-- Some bytes that a reader takes off any text that they stand in front of. -/
def Front {α : Type} (read : Bytes → Option (α × Bytes)) (bytes : Bytes) (value : α) : Prop :=
  ∀ more, read (bytes ++ more) = some (value, more)

/-- Whether a piece is a start tag, an end tag or both in one. -/
def isTag : Markup → Bool
  | .opening _ | .empty _ | .closing _ => true
  | _ => false

theorem after_front (front more : Bytes) : after front (front ++ more) = some more := by
  unfold after
  rw [if_pos (by simp), List.drop_left]

theorem cut_self (delimiter more : Bytes) :
    cut delimiter (delimiter ++ more) = some ([], more) := by
  cases delimiter with
  | nil => cases more <;> rfl
  | cons b delimiter =>
    rw [List.cons_append, cut, if_pos (by simp [List.isPrefixOf_iff_prefix])]
    simp

theorem cut_front {delimiter text before behind : Bytes}
    (h : cut delimiter text = some (before, behind)) :
    Front (cut delimiter) (before ++ delimiter) before := by
  intro more
  induction text generalizing before with
  | nil =>
    unfold cut at h
    split at h
    · cases h
      exact cut_self delimiter more
    · cases h
  | cons b text ih =>
    unfold cut at h
    split at h
    · cases h
      exact cut_self delimiter more
    · rename_i hfront
      obtain ⟨⟨found, rest⟩, hcut, heq⟩ := Option.map_eq_some_iff.mp h
      cases heq
      -- The delimiter is no longer than what stays the same.
      have hsame : b :: text = (b :: (found ++ delimiter)) ++ behind := by
        rw [cut_eq_some hcut, List.cons_append]
      have hfront' : ¬ delimiter.isPrefixOf (b :: (found ++ delimiter ++ more)) = true := by
        intro hprefix
        rw [List.isPrefixOf_iff_prefix, ← List.cons_append] at hprefix
        have hshort := List.prefix_of_prefix_length_le hprefix (List.prefix_append _ more)
          (by simp; omega)
        rw [hsame, List.isPrefixOf_iff_prefix] at hfront
        exact hfront (hshort.trans (List.prefix_append _ _))
      rw [List.cons_append, List.cons_append, cut, if_neg hfront', ih hcut]
      rfl

theorem cutBalanced_front {depth : Nat} {text before behind : Bytes}
    (h : cutBalanced depth text = some (before, behind)) :
    Front (cutBalanced depth) (before ++ [0x3E]) before := by
  intro more
  induction text generalizing depth before with
  | nil => cases h
  | cons b text ih =>
    rcases cutBalanced_cons depth b with ⟨rfl, hclose⟩ | ⟨next, hstep⟩
    · rw [hclose] at h
      cases h
      exact hclose more
    · rw [hstep] at h
      obtain ⟨⟨found, rest⟩, hcut, heq⟩ := Option.map_eq_some_iff.mp h
      cases heq
      rw [List.cons_append, List.cons_append, hstep, ih hcut]
      rfl

theorem cutTag_front {quote : Option UInt8} {text before behind : Bytes}
    (h : cutTag quote text = some (before, behind)) :
    Front (cutTag quote) (before ++ [0x3E]) before := by
  intro more
  obtain ⟨-, hquote⟩ := cutTag_eq_some_iff.mp h
  exact cutTag_eq_some_iff.mpr ⟨by simp, hquote⟩

/-- A piece between delimiters is read off any text that it stands in front of. -/
theorem delimited_front {first last text rest : Bytes} {make : Bytes → Markup} {piece : Markup}
    (h : (after first text >>= fun inner => cut last inner >>= fun found =>
      some (make found.1, found.2)) = some (piece, rest)) :
    ∃ content, piece = make content ∧ text = first ++ (content ++ last) ++ rest ∧
      Front (fun text => after first text >>= fun inner => cut last inner >>= fun found =>
        some (make found.1, found.2)) (first ++ (content ++ last)) piece := by
  obtain ⟨inner, hafter, h⟩ := Option.bind_eq_some_iff.mp h
  obtain ⟨⟨content, behind⟩, hcut, h⟩ := Option.bind_eq_some_iff.mp h
  cases h
  refine ⟨content, rfl, ?_, fun more => ?_⟩
  · rw [after_eq_some hafter, cut_eq_some hcut]
    simp only [List.append_assoc]
  · dsimp only
    rw [List.append_assoc, after_front, Option.bind_eq_bind, Option.bind_some, cut_front hcut]
    rfl

theorem declared_front {text rest : Bytes} {piece : Markup}
    (h : declared text = some (piece, rest)) :
    ∃ bytes, text = bytes ++ rest ∧ Front declared bytes piece ∧ piece.isTag = false := by
  unfold declared at h
  split at h
  · obtain ⟨content, rfl, htext, front⟩ := delimited_front h
    exact ⟨_, htext, front, rfl⟩
  · obtain ⟨content, rfl, htext, front⟩ := delimited_front h
    exact ⟨_, htext, front, rfl⟩
  · rename_i hcdata hcomment
    obtain ⟨⟨content, behind⟩, hcut, h⟩ := Option.bind_eq_some_iff.mp h
    dsimp only at h
    split at h
    · rename_i hdoctype
      cases h
      have htext : text = content ++ [0x3E] ++ rest := by
        rw [cutBalanced_eq_some hcut, List.append_assoc, List.singleton_append]
      refine ⟨content ++ [0x3E], htext, fun more => ?_, rfl⟩
      -- The first byte is in front of the bracket, so that it stays what it was.
      obtain ⟨b, others, hcons⟩ := List.exists_cons_of_ne_nil
        (List.append_ne_nil_of_right_ne_nil content (List.cons_ne_nil 0x3E []))
      have hread := cutBalanced_front hcut more
      rw [hcons, List.cons_append] at htext hread ⊢
      unfold declared
      split
      · rename_i heq
        cases heq
        exact absurd htext (hcdata _)
      · rename_i heq
        cases heq
        exact absurd htext (hcomment _)
      · rw [hread]
        change (if _ then some _ else none) = _
        rw [if_pos hdoctype]
    · cases h

theorem instructed_front {text rest : Bytes} {piece : Markup}
    (h : instructed text = some (piece, rest)) :
    ∃ bytes, text = bytes ++ rest ∧ Front instructed bytes piece ∧ piece.isTag = false := by
  unfold instructed at h
  split at h
  · cases h
  · rename_i hb
    obtain ⟨⟨content, behind⟩, hcut, h⟩ := Option.bind_eq_some_iff.mp h
    cases h
    have htext := cut_eq_some hcut
    refine ⟨content ++ ascii "?>", htext, fun more => ?_, by split <;> rfl⟩
    have hhead : (content ++ ascii "?>" ++ more).head? = text.head? := by
      rw [htext, List.append_assoc, List.append_assoc]
      cases content <;> rfl
    unfold instructed
    rw [hhead, if_neg hb, cut_front hcut]
    rfl

theorem referred_front {text rest : Bytes} {piece : Markup}
    (h : referred text = some (piece, rest)) :
    ∃ bytes, text = bytes ++ rest ∧ Front referred bytes piece ∧ piece.isTag = false := by
  unfold referred at h
  dsimp only at h
  split at h
  · rename_i behind hdrop
    cases h
    have htake := List.prefix_iff_eq_take.mp (List.takeWhile_prefix
      (l := text) fun b => b != 0x3B && b != 0x26 && b != 0x3C)
    have hall : ∀ b ∈ text.takeWhile (fun b => b != 0x3B && b != 0x26 && b != 0x3C),
        (b != 0x3B && b != 0x26 && b != 0x3C) = true := fun b hb =>
      List.all_eq_true.mp List.all_takeWhile b hb
    generalize text.takeWhile (fun b => b != 0x3B && b != 0x26 && b != 0x3C) = name at *
    have htext : text = name ++ 0x3B :: rest := by
      rw [htake, ← hdrop, List.take_append_drop]
    refine ⟨name ++ [0x3B], by rw [htext, List.append_assoc, List.singleton_append],
      fun more => ?_, rfl⟩
    have hname : (name ++ [0x3B] ++ more).takeWhile
        (fun b => b != 0x3B && b != 0x26 && b != 0x3C) = name := by
      rw [List.append_assoc, List.takeWhile_append_of_pos hall, List.singleton_append,
        List.takeWhile_cons_of_neg (by decide), List.append_nil]
    unfold referred
    dsimp only
    rw [hname, List.append_assoc, List.drop_left]
    rfl
  · cases h

/-! ## Pieces in brackets -/

theorem next_declared (text : Bytes) : next (0x3C :: 0x21 :: text) = declared text := rfl

theorem next_instructed (text : Bytes) : next (0x3C :: 0x3F :: text) = instructed text := rfl

theorem next_of_content {content rest : Bytes}
    (hhead : ∀ b, content.head? = some b → b ≠ 0x21 ∧ b ≠ 0x2F ∧ b ≠ 0x3F)
    (hquote : quoteAfter none content = some none) :
    next (0x3C :: (content ++ 0x3E :: rest)) = some (tagPiece content, rest) := by
  have hcut : cutTag none (content ++ 0x3E :: rest) = some (content, rest) :=
    cutTag_eq_some_iff.mpr ⟨rfl, hquote⟩
  have hbracketed : bracketed (content ++ 0x3E :: rest) =
      (cutTag none (content ++ 0x3E :: rest)).map
        fun found => (tagPiece found.1, found.2) := by
    cases content with
    | nil => rfl
    | cons b content =>
      obtain ⟨hdeclared, hclosing, hinstructed⟩ := hhead b rfl
      unfold bracketed
      split
      · rename_i heq
        cases heq
        exact absurd rfl hdeclared
      · rename_i heq
        cases heq
        exact absurd rfl hinstructed
      · rename_i heq
        cases heq
        exact absurd rfl hclosing
      · rfl
  exact hbracketed.trans (by rw [hcut]; rfl)

theorem next_of_closing {content rest : Bytes} (hquote : quoteAfter none content = some none) :
    next (0x3C :: 0x2F :: (content ++ 0x3E :: rest)) =
      some (.closing (closingName content), rest) := by
  have hcut : cutTag none (content ++ 0x3E :: rest) = some (content, rest) :=
    cutTag_eq_some_iff.mpr ⟨rfl, hquote⟩
  have hnext : next (0x3C :: 0x2F :: (content ++ 0x3E :: rest)) =
      (cutTag none (content ++ 0x3E :: rest)).map
        fun found => (.closing (closingName found.1), found.2) := rfl
  rw [hnext, hcut]
  rfl

/-! ## The shape of a piece -/

/-- How a text that is not empty consists of a piece and the rest. -/
inductive Shape : Bytes → Markup → Bytes → Prop where
  | tag {content rest : Bytes}
      (begins : ∀ b, content.head? = some b → b ≠ 0x21 ∧ b ≠ 0x2F ∧ b ≠ 0x3F)
      (quote : quoteAfter none content = some none) :
      Shape (0x3C :: (content ++ 0x3E :: rest)) (tagPiece content) rest
  | closing {content rest : Bytes} (quote : quoteAfter none content = some none) :
      Shape (0x3C :: 0x2F :: (content ++ 0x3E :: rest)) (.closing (closingName content)) rest
  | bracket {front rest : Bytes} {piece : Markup} (other : piece.isTag = false) :
      Shape (0x3C :: (front ++ rest)) piece rest
  | plain {b : UInt8} {front rest : Bytes} {piece : Markup} (noBracket : b ≠ 0x3C)
      (other : piece.isTag = false) : Shape (b :: (front ++ rest)) piece rest

theorem bracketed_shape {text rest : Bytes} {piece : Markup}
    (h : bracketed text = some (piece, rest)) : Shape (0x3C :: text) piece rest := by
  unfold bracketed at h
  split at h
  · rename_i inner
    obtain ⟨front, rfl, -, hother⟩ := declared_front h
    exact @Shape.bracket (0x21 :: front) _ _ hother
  · rename_i inner
    obtain ⟨front, rfl, -, hother⟩ := instructed_front h
    exact @Shape.bracket (0x3F :: front) _ _ hother
  · obtain ⟨⟨content, behind⟩, hcut, heq⟩ := Option.map_eq_some_iff.mp h
    cases heq
    obtain ⟨rfl, hquote⟩ := cutTag_eq_some_iff.mp hcut
    exact .closing hquote
  · rename_i hdeclared hinstructed hclosing
    obtain ⟨⟨content, behind⟩, hcut, heq⟩ := Option.map_eq_some_iff.mp h
    cases heq
    obtain ⟨rfl, hquote⟩ := cutTag_eq_some_iff.mp hcut
    refine .tag (fun b hb => ?_) hquote
    obtain ⟨inner, rfl⟩ := List.head?_eq_some_iff.mp hb
    refine ⟨?_, ?_, ?_⟩
    · rintro rfl
      exact hdeclared _ rfl
    · rintro rfl
      exact hclosing _ rfl
    · rintro rfl
      exact hinstructed _ rfl

theorem next_shape {b : UInt8} {text rest : Bytes} {piece : Markup}
    (h : next (b :: text) = some (piece, rest)) : Shape (b :: text) piece rest := by
  unfold next at h
  split at h
  · rename_i heq
    cases heq
    exact bracketed_shape h
  · rename_i inner heq
    cases heq
    obtain ⟨front, rfl, -, hother⟩ := referred_front h
    exact .plain (by decide) hother
  · rename_i hbracket hamp
    have hopen : b ≠ 0x3C := by
      rintro rfl
      exact hbracket _ rfl
    have hb : isText b = true := by
      have hand : b ≠ 0x26 := by
        rintro rfl
        exact hamp _ rfl
      simp [isText, hopen, hand]
    rw [List.takeWhile_cons_of_pos hb, List.dropWhile_cons_of_pos hb] at h
    cases h
    have hshape := @Shape.plain b (text.takeWhile isText) (text.dropWhile isText)
      (.text (b :: text.takeWhile isText)) hopen rfl
    rwa [List.takeWhile_append_dropWhile] at hshape

theorem exists_content {b : UInt8} {text rest : Bytes} {piece : Markup} {tag : Tag}
    (h : next (b :: text) = some (piece, rest))
    (hpiece : piece = .empty tag ∨ piece = .opening tag) :
    ∃ content, b :: text = 0x3C :: (content ++ 0x3E :: rest) ∧
      (∀ b, content.head? = some b → b ≠ 0x21 ∧ b ≠ 0x2F ∧ b ≠ 0x3F) ∧
      quoteAfter none content = some none ∧ tagPiece content = piece := by
  have htag : piece.isTag = true := by
    rcases hpiece with rfl | rfl <;> rfl
  have hshape := next_shape h
  generalize b :: text = bytes at hshape
  cases hshape with
  | @tag content rest begins quote => exact ⟨content, rfl, begins, quote, rfl⟩
  | closing => rcases hpiece with hpiece | hpiece <;> cases hpiece
  | bracket other =>
    rw [htag] at other
    cases other
  | plain noBracket other =>
    rw [htag] at other
    cases other

/-- White space may follow the name in an end tag. -/
theorem exists_closingName (content : Bytes) :
    ∃ spaces, content = closingName content ++ spaces ∧ ∀ b ∈ spaces, isSpace b = true := by
  unfold closingName
  split
  · exact ⟨[], (List.append_nil _).symm, nofun⟩
  · refine ⟨(content.reverse.takeWhile isSpace).reverse, ?_, fun b hb => ?_⟩
    · rw [trimEnd, ← List.reverse_append, List.takeWhile_append_dropWhile, List.reverse_reverse]
    · rw [List.mem_reverse] at hb
      exact List.all_eq_true.mp List.all_takeWhile b hb

theorem exists_closing {b : UInt8} {text rest name : Bytes}
    (h : next (b :: text) = some (.closing name, rest)) :
    ∃ content, b :: text = 0x3C :: 0x2F :: (content ++ 0x3E :: rest) ∧
      quoteAfter none content = some none ∧ closingName content = name := by
  have hshape := next_shape h
  generalize b :: text = bytes at hshape
  generalize hpiece : closing name = piece at hshape
  cases hshape with
  | tag =>
    unfold tagPiece at hpiece
    split at hpiece <;> cases hpiece
  | @closing content rest quote =>
    cases hpiece
    exact ⟨content, rfl, quote, rfl⟩
  | bracket other =>
    subst hpiece
    cases other
  | plain noBracket other =>
    subst hpiece
    cases other

theorem length_lt_of_next {b : UInt8} {text rest : Bytes} {piece : Markup}
    (h : next (b :: text) = some (piece, rest)) : rest.length < (b :: text).length := by
  have hshape := next_shape h
  generalize b :: text = bytes at hshape
  cases hshape <;> simp only [List.length_cons, List.length_append] <;> omega

end BinaryXml.Markup
