import BinaryXml.Proofs.Stream.Forms
import BinaryXml.Proofs.Text.Utf8

/-! # Steps of the decoder and the forms that they read

* `Reads action state form`: at a state, a step of the decoder succeeds exactly on the byte strings
  of a form, whatever follows them; the form also says what the code pages are afterwards.
* `Reads.bind` puts two steps together, `Reads.byteThen` puts a byte in front.
* `reads_string` and `reads_literalName`: characters and names are read exactly where they stand.
-/

namespace BinaryXml

set_option autoImplicit false

/-- Each byte is a character of its own, or the bytes are UTF-8. -/
theorem Charset.decode_cases {charset : Charset} {raw : Bytes} {text : String}
    (h : charset.decode raw = .ok text) :
    text = String.ofList (raw.map fun b => Char.ofNat b.toNat) ∨ Utf8.encode text = raw := by
  cases charset with
  | latin1 =>
    cases h
    exact .inl rfl
  | usAscii =>
    simp only [Charset.decode] at h
    split at h
    · cases h
      exact .inl rfl
    · cases h
  | utf8 =>
    simp only [Charset.decode] at h
    split at h
    · rename_i hdecode
      cases h
      exact .inr (Utf8.encode_of_decode hdecode)
    · cases h

namespace Decoding

open Grammar

/-! ## Steps of the decoder -/

def State.pages (state : State) : Pages :=
  ⟨state.tagPage, state.attributePage⟩

/-- What a step of the decoder takes at a state. -/
structure Reads {α : Type} (action : Decode α) (state : State) (form : Bytes → α → Pages → Prop) :
    Prop where
  sound : ∀ {value state'}, action state = .ok value state' →
    ∃ bytes, form bytes value state'.pages ∧ Moves state.cursor state'.cursor bytes
  complete : ∀ {bytes rest value pages}, form bytes value pages →
    state.cursor.rest = bytes ++ rest →
    ∃ state', action state = .ok value state' ∧ state'.pages = pages ∧
      Moves state.cursor state'.cursor bytes

section Steps
variable {α β : Type} {state : State}

theorem Reads.congr {action : Decode α} {form form' : Bytes → α → Pages → Prop}
    (h : Reads action state form)
    (hf : ∀ bytes value pages, form bytes value pages ↔ form' bytes value pages) :
    Reads action state form' := by
  constructor
  · intro value state' hrun
    obtain ⟨bytes, hform, hm⟩ := h.sound hrun
    exact ⟨bytes, (hf _ _ _).mp hform, hm⟩
  · intro bytes rest value pages hform hrest
    exact h.complete ((hf _ _ _).mpr hform) hrest

theorem reads_pure (a : α) :
    Reads (pure a) state (fun bytes value pages => bytes = [] ∧ value = a ∧ pages = state.pages) := by
  constructor
  · intro value state' h
    cases h
    exact ⟨[], ⟨rfl, rfl, rfl⟩, Moves.refl _⟩
  · rintro bytes rest value pages ⟨rfl, rfl, rfl⟩ -
    exact ⟨state, rfl, rfl, Moves.refl _⟩

theorem reads_throw (error : Error) :
    Reads (throw error : Decode α) state (fun _ _ _ => False) := by
  constructor
  · intro value state' h
    cases h
  · intro bytes rest value pages h
    exact h.elim

theorem reads_lift (result : Except Error α) :
    Reads (lift result) state
      (fun bytes value pages => bytes = [] ∧ result = .ok value ∧ pages = state.pages) := by
  cases result with
  | ok a =>
    refine (reads_pure a).congr fun bytes value pages => ?_
    simp only [Except.ok.injEq, eq_comm]
  | error error =>
    refine (reads_throw error).congr fun bytes value pages => ?_
    simp

/-- The second step starts at a state that the first one leads to. -/
theorem Reads.bind {first : Decode α} {next : α → Decode β} {form : Bytes → α → Pages → Prop}
    (h : Reads first state form) (form' : α → Pages → Bytes → β → Pages → Prop)
    (h' : ∀ a front state', form front a state'.pages → Moves state.cursor state'.cursor front →
      Reads (next a) state' (form' a state'.pages)) :
    Reads (first >>= next) state (fun bytes value pages =>
      ∃ a middle front back, bytes = front ++ back ∧ form front a middle ∧
        form' a middle back value pages) := by
  constructor
  · intro value state'' hrun
    obtain ⟨a, state', hfirst, hnext⟩ := bind_eq_ok_iff.mp hrun
    obtain ⟨front, hform, hm⟩ := h.sound hfirst
    obtain ⟨back, hform', hm'⟩ := (h' a front state' hform hm).sound hnext
    exact ⟨front ++ back, ⟨a, _, front, back, rfl, hform, hform'⟩, hm.trans hm'⟩
  · rintro bytes rest value pages ⟨a, middle, front, back, rfl, hform, hform'⟩ hrest
    rw [List.append_assoc] at hrest
    obtain ⟨state', hfirst, rfl, hm⟩ := h.complete hform hrest
    obtain ⟨state'', hnext, hpages, hm'⟩ :=
      (h' a front state' hform hm).complete hform' (hm.rest_eq hrest)
    exact ⟨state'', bind_eq_ok_iff.mpr ⟨a, state', hfirst, hnext⟩, hpages, hm.trans hm'⟩

theorem reads_read {reader : Reader α} {form : α → Bytes → Prop} (h : Reader.Reads reader form) :
    Reads (read reader) state (fun bytes value pages => form value bytes ∧ pages = state.pages) := by
  constructor
  · intro value state' hrun
    unfold read at hrun
    split at hrun
    · rename_i a cursor hreader
      cases hrun
      obtain ⟨bytes, hform, hm⟩ := (h _ _ _).mp hreader
      exact ⟨bytes, ⟨hform, rfl⟩, hm⟩
    · cases hrun
  · rintro bytes rest value pages ⟨hform, rfl⟩ hrest
    have hm := Moves.ofRest hrest
    have hreader := (h _ _ _).mpr ⟨bytes, hform, hm⟩
    refine ⟨{ state with cursor := ⟨state.cursor.offset + bytes.length, rest⟩ }, ?_, rfl, hm⟩
    unfold read
    rw [hreader]

/-- A step that begins with one byte reads a form whose byte strings all begin with one. -/
theorem Reads.byteThen {next : UInt8 → Decode β} {form : Bytes → β → Pages → Prop}
    (hne : ∀ value pages, ¬ form [] value pages)
    (h : ∀ token state', Moves state.cursor state'.cursor [token] → state'.pages = state.pages →
      Reads (next token) state' (fun bytes => form (token :: bytes))) :
    Reads (read Reader.byte >>= next) state form := by
  refine (Reads.bind (reads_read Reader.reads_byte) (fun token _ bytes =>
    form (token :: bytes)) ?_).congr ?_
  · rintro token _ state' ⟨rfl, hpages⟩ hm
    exact h token state' hm hpages
  · intro bytes value pages
    constructor
    · rintro ⟨token, _, _, back, rfl, ⟨rfl, -⟩, hform⟩
      exact hform
    · intro hform
      cases bytes with
      | nil => exact (hne value pages hform).elim
      | cons token back => exact ⟨token, state.pages, [token], back, rfl, ⟨rfl, rfl⟩, hform⟩

/-- A step that makes a value of what another one reads. -/
theorem Reads.map {first : Decode α} {form : Bytes → α → Pages → Prop} (h : Reads first state form)
    (f : α → β) :
    Reads (do let a ← first; pure (f a)) state
      (fun bytes value pages => ∃ a, form bytes a pages ∧ value = f a) := by
  refine (h.bind (fun a middle bytes value pages => bytes = [] ∧ value = f a ∧ pages = middle)
    fun a front state' _ _ => reads_pure (f a)).congr fun bytes value pages => ?_
  constructor
  · rintro ⟨a, _, front, _, rfl, hform, rfl, rfl, rfl⟩
    exact ⟨a, by simpa using hform, rfl⟩
  · rintro ⟨a, hform, rfl⟩
    exact ⟨a, pages, bytes, [], by simp, hform, rfl, rfl, rfl⟩

theorem reads_lift_read {reader : Reader α} {form : α → Bytes → Prop} (h : Reader.Reads reader form)
    (f : α → Except Error β) :
    Reads (do lift (f (← read reader))) state
      (fun bytes value pages => ∃ a, form a bytes ∧ f a = .ok value ∧ pages = state.pages) := by
  refine ((reads_read h).bind (fun a middle bytes value pages =>
    bytes = [] ∧ f a = .ok value ∧ pages = middle) fun a _ state' _ _ => reads_lift (f a)).congr
      fun bytes value pages => ?_
  constructor
  · rintro ⟨a, _, front, _, rfl, ⟨hform, rfl⟩, rfl, hvalue, rfl⟩
    rw [List.append_nil]
    exact ⟨a, hform, hvalue, rfl⟩
  · rintro ⟨a, hform, hvalue, rfl⟩
    exact ⟨a, _, bytes, [], (List.append_nil _).symm, ⟨hform, rfl⟩, rfl, hvalue, rfl⟩

theorem reads_found {γ : Type} {action : Decode β} (found : Option γ)
    (form : γ → Bytes → β → Pages → Prop)
    (h : ∀ entry, found = some entry → Reads action state (form entry))
    (hnone : found = none → Reads action state fun _ _ _ => False) :
    Reads action state
      (fun bytes value pages => ∃ entry, found = some entry ∧ form entry bytes value pages) := by
  cases found with
  | some entry => exact (h entry rfl).congr fun _ _ _ => by simp
  | none => exact (hnone rfl).congr fun _ _ _ => by simp

theorem Reads.getThen {next : State → Decode β} {form : Bytes → β → Pages → Prop}
    (h : Reads (next state) state form) : Reads (get >>= next) state form :=
  ⟨fun hrun => h.sound hrun, fun hform hrest => h.complete hform hrest⟩

theorem Reads.remainingThen {next : Nat → Decode β} {form : Bytes → β → Pages → Prop}
    (h : Reads (next state.cursor.rest.length) state form) :
    Reads (remaining >>= next) state form :=
  ⟨fun hrun => h.sound hrun, fun hform hrest => h.complete hform hrest⟩

/-- Where no byte is left, nothing is read that has a byte. -/
theorem reads_byte_of_atEnd {next : UInt8 → Decode β} {form : Bytes → β → Pages → Prop}
    (hne : ∀ value pages, ¬ form [] value pages) (hend : state.cursor.rest.length ≤ 0) :
    Reads (read Reader.byte >>= next) state form := by
  refine Reads.byteThen hne fun token state' hm _ => ?_
  have hlen := hm.length_add
  rw [List.length_singleton] at hlen
  omega

theorem reads_modify (f : State → State) (h : (f state).cursor = state.cursor) :
    Reads (modify f : Decode Unit) state (fun bytes _ pages => bytes = [] ∧ pages = (f state).pages) := by
  constructor
  · intro value state' hrun
    cases hrun
    exact ⟨[], ⟨rfl, rfl⟩, by rw [h]; exact Moves.refl _⟩
  · rintro bytes rest value pages ⟨rfl, rfl⟩ -
    exact ⟨f state, rfl, rfl, by rw [h]; exact Moves.refl _⟩

theorem reads_switchTagPage :
    Reads switchTagPage state
      (fun bytes _ pages => ∃ page, bytes = [page] ∧ pages = ⟨page, state.attributePage⟩) := by
  refine ((reads_read Reader.reads_byte).bind (fun page middle bytes _ pages =>
    bytes = [] ∧ pages = ⟨page, middle.attributes⟩) ?_).congr ?_
  · intro page front state' _ _
    exact reads_modify (fun state => { state with
      tagPage := page, events := state.events ++ [.tagPageRead page] }) rfl
  · intro bytes value pages
    constructor
    · rintro ⟨page, _, front, back, rfl, ⟨rfl, rfl⟩, rfl, rfl⟩
      exact ⟨page, rfl, rfl⟩
    · rintro ⟨page, rfl, rfl⟩
      exact ⟨page, _, [page], [], rfl, ⟨rfl, rfl⟩, rfl, rfl⟩

theorem reads_switchAttributePage :
    Reads switchAttributePage state
      (fun bytes _ pages => ∃ page, bytes = [page] ∧ pages = ⟨state.tagPage, page⟩) := by
  refine ((reads_read Reader.reads_byte).bind (fun page middle bytes _ pages =>
    bytes = [] ∧ pages = ⟨middle.tags, page⟩) ?_).congr ?_
  · intro page front state' _ _
    exact reads_modify (fun state => { state with
      attributePage := page, events := state.events ++ [.attributePageRead page] }) rfl
  · intro bytes value pages
    constructor
    · rintro ⟨page, _, front, back, rfl, ⟨rfl, rfl⟩, rfl, rfl⟩
      exact ⟨page, rfl, rfl⟩
    · rintro ⟨page, rfl, rfl⟩
      exact ⟨page, _, [page], [], rfl, ⟨rfl, rfl⟩, rfl, rfl⟩

end Steps

/-! ## Strings -/

section Strings
variable (context : Context) {state : State}

theorem tableString_eq_ok_iff {offset : UInt32} {text : String} :
    tableString context offset = .ok text ↔
      ∃ raw, Holds context.table.data offset raw ∧ context.charset.decode raw = .ok text := by
  unfold tableString
  cases hget : context.table.get offset with
  | error error =>
    constructor
    · intro h
      cases h
    · rintro ⟨raw, hraw, -⟩
      rw [get_eq_ok_iff.mpr hraw] at hget
      cases hget
  | ok raw =>
    constructor
    · intro h
      exact ⟨raw, get_eq_ok_iff.mp hget, h⟩
    · rintro ⟨raw', hraw, h⟩
      rw [get_eq_ok_iff.mpr hraw] at hget
      cases hget
      exact h

theorem char?_eq_some_iff {code : Nat} {c : Char} : Scalar.char? code = some c ↔ c.toNat = code := by
  unfold Scalar.char?
  constructor
  · intro h
    split at h
    · rename_i hvalid
      cases h
      exact Utf8.char_toNat_ofNat hvalid
    · cases h
  · rintro rfl
    have hvalid : c.toNat.isValidChar := c.valid
    rw [if_pos hvalid, Char.ofNat_toNat]

theorem reads_entity :
    Reads (string context .entity) state
      (fun bytes text pages => Operand context .entity bytes text ∧ pages = state.pages) := by
  refine ((reads_read Reader.reads_number).bind (fun code middle bytes text pages =>
    ∃ c, Scalar.char? code.toNat = some c ∧ bytes = [] ∧ text = String.singleton c ∧ pages = middle)
    fun code _ state' _ _ => ?_).congr fun bytes text pages => ?_
  · refine reads_found _ _ (fun c hc => ?_) fun hnone => ?_
    · rw [hc]
      exact reads_pure (String.singleton c)
    · rw [hnone]
      exact reads_throw _
  · constructor
    · rintro ⟨code, _, front, _, rfl, ⟨hnumber, rfl⟩, c, hc, rfl, rfl, rfl⟩
      rw [List.append_nil]
      exact ⟨.entity hnumber (char?_eq_some_iff.mp hc), rfl⟩
    · rintro ⟨h, rfl⟩
      cases h with
      | entity hnumber hc =>
        exact ⟨_, _, bytes, [], (List.append_nil _).symm, ⟨hnumber, rfl⟩, _,
          char?_eq_some_iff.mpr hc, rfl, rfl, rfl⟩

theorem reads_string (kind : StringToken) :
    Reads (string context kind) state
      (fun bytes text pages => Operand context kind bytes text ∧ pages = state.pages) := by
  cases kind with
  | inline =>
    refine (reads_lift_read Reader.reads_string context.charset.decode).congr
      fun bytes text pages => ?_
    constructor
    · rintro ⟨raw, hframe, hdecode, rfl⟩
      exact ⟨.inline hframe hdecode, rfl⟩
    · rintro ⟨h, rfl⟩
      cases h with
      | inline hframe hdecode => exact ⟨_, hframe, hdecode, rfl⟩
  | table =>
    refine (reads_lift_read Reader.reads_number (tableString context)).congr
      fun bytes text pages => ?_
    constructor
    · rintro ⟨offset, hnumber, htable, rfl⟩
      obtain ⟨raw, hheld, hdecode⟩ := (tableString_eq_ok_iff context).mp htable
      exact ⟨.table hnumber hheld hdecode, rfl⟩
    · rintro ⟨h, rfl⟩
      cases h with
      | table hnumber hheld hdecode =>
        exact ⟨_, hnumber, (tableString_eq_ok_iff context).mpr ⟨_, hheld, hdecode⟩, rfl⟩
  | entity => exact reads_entity context
  | data =>
    refine ((reads_read Reader.reads_counted).map context.opaqueEncoding.encode).congr
      fun bytes text pages => ?_
    constructor
    · rintro ⟨data, ⟨hframe, rfl⟩, rfl⟩
      exact ⟨.data hframe, rfl⟩
    · rintro ⟨h, rfl⟩
      cases h with
      | data hframe => exact ⟨_, ⟨hframe, rfl⟩, rfl⟩

theorem reads_literalName :
    Reads (literalName context) state
      (fun bytes name pages => Grammar.LiteralName context bytes name ∧ pages = state.pages) := by
  unfold literalName Grammar.LiteralName
  cases htable : context.table.data with
  | nil => exact reads_string context .inline
  | cons b rest => exact reads_string context .table

end Strings

end Decoding

end BinaryXml
