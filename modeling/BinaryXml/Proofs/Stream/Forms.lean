import BinaryXml.Proofs.Stream.Grammar

/-! # Readers and the forms that they read

* `triedAll`: the state behind steps that are tried one after the other, whether they fail or not.
* `Moves cursor cursor' bytes`: the second place is the first one behind `bytes`.
* `Reader.Reads reader form`: the reader succeeds exactly on the byte strings of a form, whatever
  follows them, and gives the value of the form.
* `Reads action state form`: the same for a step of the decoder at a state, where a form may also
  say what the code pages are afterwards. `Reads.bind` puts two steps together.
* `reads_header`: a header is read exactly where there is one.
-/

namespace BinaryXml

set_option autoImplicit false

theorem bind_eq_ok_iff {ε σ α β : Type} {first : EStateM ε σ α} {next : α → EStateM ε σ β}
    {state last : σ} {value : β} :
    (first >>= next) state = .ok value last ↔
      ∃ a middle, first state = .ok a middle ∧ next a middle = .ok value last := by
  change EStateM.bind first next state = _ ↔ _
  unfold EStateM.bind
  cases first state with
  | ok a middle =>
    constructor
    · intro h
      exact ⟨a, middle, rfl, h⟩
    · rintro ⟨_, _, ⟨⟩, h⟩
      exact h
  | error error middle =>
    constructor
    · intro h
      cases h
    · rintro ⟨_, _, h, -⟩
      cases h

theorem bind_of_ok {ε σ α β : Type} {first : EStateM ε σ α} {next : α → EStateM ε σ β}
    {state middle : σ} {a : α} (h : first state = .ok a middle) :
    (first >>= next) state = next a middle := by
  change EStateM.bind first next state = _
  unfold EStateM.bind
  rw [h]

theorem bind_of_error {ε σ α β : Type} {first : EStateM ε σ α} {next : α → EStateM ε σ β}
    {state middle : σ} {error : ε} (h : first state = .error error middle) :
    (first >>= next) state = .error error middle := by
  change EStateM.bind first next state = _
  unfold EStateM.bind
  rw [h]

/-! ## Steps that do not end the others -/

section Tried
variable {ε σ α β : Type}

/-- The answer of a step, which may be a failure, and the state behind it. -/
def tried (step : EStateM ε σ α) (state : σ) : Except ε α × σ :=
  match step state with
  | .ok value state => (.ok value, state)
  | .error error state => (.error error, state)

/-- The state behind steps one after the other, where a failure does not end them. -/
def triedAll (steps : List (EStateM ε σ α)) (state : σ) : σ :=
  steps.foldl (fun state step => (tried step state).2) state

theorem tried_of_ok {step : EStateM ε σ α} {state state' : σ} {value : α}
    (h : step state = .ok value state') : tried step state = (.ok value, state') := by
  rw [tried, h]

theorem tried_of_error {step : EStateM ε σ α} {state state' : σ} {error : ε}
    (h : step state = .error error state') : tried step state = (.error error, state') := by
  rw [tried, h]

theorem tried_bind (first : EStateM ε σ α) (next : α → EStateM ε σ β) (state : σ) :
    tried (first >>= next) state = match tried first state with
      | (.ok value, state) => tried (next value) state
      | (.error error, state) => (.error error, state) := by
  change tried (EStateM.bind first next) state = _
  simp only [tried, EStateM.bind]
  cases first state <;> rfl

theorem tried_map (f : α → β) (step : EStateM ε σ α) (state : σ) :
    tried (f <$> step) state = ((tried step state).1.map f, (tried step state).2) := by
  change tried (EStateM.map f step) state = _
  simp only [tried, EStateM.map]
  cases step state <;> rfl

theorem triedAll_concat (steps : List (EStateM ε σ α)) (last : EStateM ε σ α) (state : σ) :
    triedAll (steps ++ [last]) state = (tried last (triedAll steps state)).2 := by
  rw [triedAll, List.foldl_append]
  rfl

end Tried

/-! ## Places -/

/-- One place is another one behind some bytes. -/
structure Moves (cursor cursor' : Cursor) (bytes : Bytes) : Prop where
  rest : cursor.rest = bytes ++ cursor'.rest
  offset : cursor'.offset = cursor.offset + bytes.length

namespace Moves

variable {cursor cursor' cursor'' : Cursor} {front back : Bytes}

theorem refl (cursor : Cursor) : Moves cursor cursor [] := ⟨rfl, rfl⟩

theorem trans (h : Moves cursor cursor' front) (h' : Moves cursor' cursor'' back) :
    Moves cursor cursor'' (front ++ back) := by
  constructor
  · rw [h.rest, h'.rest, List.append_assoc]
  · rw [h'.offset, h.offset, List.length_append, Nat.add_assoc]

theorem ofRest {rest : Bytes} (h : cursor.rest = front ++ rest) :
    Moves cursor ⟨cursor.offset + front.length, rest⟩ front := ⟨h, rfl⟩

theorem split (h : Moves cursor cursor'' (front ++ back)) :
    ∃ cursor', Moves cursor cursor' front ∧ Moves cursor' cursor'' back := by
  refine ⟨⟨cursor.offset + front.length, back ++ cursor''.rest⟩, ⟨?_, rfl⟩, rfl, ?_⟩
  · rw [h.rest, List.append_assoc]
  · rw [h.offset, List.length_append, Nat.add_assoc]

theorem eq_of_nil (h : Moves cursor cursor' []) : cursor' = cursor := by
  cases cursor
  cases cursor'
  have hrest := h.rest
  have hoffset := h.offset
  simp_all

theorem length_add (h : Moves cursor cursor' front) :
    cursor'.rest.length + front.length = cursor.rest.length := by
  rw [h.rest, List.length_append, Nat.add_comm]

theorem length_le_of_le {bound : Nat} (h : Moves cursor cursor' front)
    (hbound : cursor.rest.length ≤ bound) : cursor'.rest.length ≤ bound := by
  have hlen := h.length_add
  omega

theorem length_lt_of_ne_nil (h : Moves cursor cursor' front) (hne : front ≠ []) :
    cursor'.rest.length < cursor.rest.length := by
  have hlen := h.length_add
  have hpos := List.length_pos_iff.mpr hne
  omega

/-- A bound on what is left goes down by one with each byte that is passed. -/
theorem length_le_of_byte {bound : Nat} {b : UInt8} (h : Moves cursor cursor' [b])
    (hbound : cursor.rest.length ≤ bound + 1) : cursor'.rest.length ≤ bound := by
  have hlt := h.length_lt_of_ne_nil (List.cons_ne_nil b [])
  omega

theorem rest_eq {rest : Bytes} (h : Moves cursor cursor' front) (hr : cursor.rest = front ++ rest) :
    cursor'.rest = rest :=
  List.append_cancel_left (h.rest.symm.trans hr)

end Moves

/-! ## Tokens -/

/-- What a byte is that is sorted under some token of an attribute list. -/
def AttributeToken.Sorts (token : UInt8) : AttributeToken → Prop
  | .finish => token = Code.finish
  | .switchPage => token = Code.switchPage
  | .literal => token = Code.literal
  | .string kind => token = kind.code
  | .reserved => Code.base token < Code.firstOfPage ∧ token ≠ Code.finish ∧
      token ≠ Code.switchPage ∧ token ≠ Code.literal ∧ ∀ kind : StringToken, token ≠ kind.code
  | .start => Code.firstOfPage ≤ Code.base token ∧ token < 0x80
  | .value => Code.firstOfPage ≤ Code.base token ∧ 0x80 ≤ token

/-- What a byte is that is sorted under some token of a content. -/
def ContentToken.Sorts (token : UInt8) : ContentToken → Prop
  | .finish => token = Code.finish
  | .switchPage => token = Code.switchPage
  | .string kind => token = kind.code
  | .reserved => Code.base token < Code.literal ∧ token ≠ Code.finish ∧
      token ≠ Code.switchPage ∧ ∀ kind : StringToken, token ≠ kind.code
  | .tag => Code.literal ≤ Code.base token

theorem StringToken.forall_iff {p : StringToken → Prop} :
    (∀ kind, p kind) ↔ p .inline ∧ p .table ∧ p .entity ∧ p .data := by
  constructor
  · intro h
    exact ⟨h _, h _, h _, h _⟩
  · rintro ⟨h1, h2, h3, h4⟩ kind
    cases kind <;> assumption

instance {p : StringToken → Prop} [DecidablePred p] : Decidable (∀ kind, p kind) :=
  decidable_of_iff _ StringToken.forall_iff.symm

instance (token : UInt8) : (sort : AttributeToken) → Decidable (sort.Sorts token)
  | .finish => inferInstanceAs (Decidable (token = Code.finish))
  | .switchPage => inferInstanceAs (Decidable (token = Code.switchPage))
  | .literal => inferInstanceAs (Decidable (token = Code.literal))
  | .string kind => inferInstanceAs (Decidable (token = kind.code))
  | .reserved => inferInstanceAs (Decidable (Code.base token < Code.firstOfPage ∧
      token ≠ Code.finish ∧ token ≠ Code.switchPage ∧ token ≠ Code.literal ∧
        ∀ kind : StringToken, token ≠ kind.code))
  | .start => inferInstanceAs (Decidable (Code.firstOfPage ≤ Code.base token ∧ token < 0x80))
  | .value => inferInstanceAs (Decidable (Code.firstOfPage ≤ Code.base token ∧ 0x80 ≤ token))

instance (token : UInt8) : (sort : ContentToken) → Decidable (sort.Sorts token)
  | .finish => inferInstanceAs (Decidable (token = Code.finish))
  | .switchPage => inferInstanceAs (Decidable (token = Code.switchPage))
  | .string kind => inferInstanceAs (Decidable (token = kind.code))
  | .reserved => inferInstanceAs (Decidable (Code.base token < Code.literal ∧
      token ≠ Code.finish ∧ token ≠ Code.switchPage ∧ ∀ kind : StringToken, token ≠ kind.code))
  | .tag => inferInstanceAs (Decidable (Code.literal ≤ Code.base token))

theorem byte_forall {p : UInt8 → Prop} (h : ∀ n < 256, p (UInt8.ofNat n)) (token : UInt8) :
    p token := by
  have := h token.toNat token.toNat_lt
  rwa [UInt8.ofNat_toNat] at this

theorem AttributeToken.sorts_ofByte (token : UInt8) :
    (AttributeToken.ofByte token).Sorts token := by
  revert token
  apply byte_forall
  decide +kernel

theorem AttributeToken.ofByte_code (kind : StringToken) : ofByte kind.code = .string kind := by
  cases kind <;> rfl

/-- A token of a page starts an attribute or is a value. -/
theorem AttributeToken.start_or_value {token : UInt8} {sort : AttributeToken}
    (h : sort.Sorts token) (base : Code.firstOfPage ≤ Code.base token) :
    sort = .start ∨ sort = .value := by
  cases sort with
  | start => exact .inl rfl
  | value => exact .inr rfl
  | finish | switchPage | literal =>
    cases h
    exact absurd base (by decide)
  | string kind =>
    cases h
    exact absurd base (by cases kind <;> decide)
  | reserved => exact absurd base (UInt8.not_le.mpr h.1)

theorem AttributeToken.ofByte_eq_start {token : UInt8} (base : Code.firstOfPage ≤ Code.base token)
    (low : token < 0x80) : ofByte token = .start := by
  have hsorts := sorts_ofByte token
  rcases start_or_value hsorts base with h | h
  · exact h
  · rw [h] at hsorts
    exact absurd low (UInt8.not_lt.mpr hsorts.2)

theorem AttributeToken.ofByte_eq_value {token : UInt8} (base : Code.firstOfPage ≤ Code.base token)
    (high : 0x80 ≤ token) : ofByte token = .value := by
  have hsorts := sorts_ofByte token
  rcases start_or_value hsorts base with h | h
  · rw [h] at hsorts
    exact absurd high (UInt8.not_le.mpr hsorts.2)
  · exact h

theorem ContentToken.sorts_ofByte (token : UInt8) : (ContentToken.ofByte token).Sorts token := by
  revert token
  apply byte_forall
  decide +kernel

theorem ContentToken.ofByte_code (kind : StringToken) : ofByte kind.code = .string kind := by
  cases kind <;> rfl

theorem ContentToken.ofByte_eq_tag {token : UInt8} (base : Code.literal ≤ Code.base token) :
    ofByte token = .tag := by
  have hsorts := sorts_ofByte token
  cases hsort : ofByte token with
  | tag => rfl
  | finish | switchPage =>
    rw [hsort] at hsorts
    cases hsorts
    exact absurd base (by decide)
  | string kind =>
    rw [hsort] at hsorts
    cases hsorts
    exact absurd base (by cases kind <;> decide)
  | reserved =>
    rw [hsort] at hsorts
    exact absurd base (UInt8.not_le.mpr hsorts.1)

/-! ## Readers -/

namespace Reader

/-- A reader takes exactly the byte strings of a form, with the values of the form. -/
def Reads {α : Type} (reader : Reader α) (form : α → Bytes → Prop) : Prop :=
  ∀ cursor value cursor', reader cursor = .ok value cursor' ↔
    ∃ bytes, form value bytes ∧ Moves cursor cursor' bytes

theorem Reads.congr {α : Type} {reader : Reader α} {form form' : α → Bytes → Prop}
    (h : Reads reader form) (hf : ∀ value bytes, form value bytes ↔ form' value bytes) :
    Reads reader form' := by
  intro cursor value cursor'
  rw [h]
  simp only [hf]

theorem reads_pure {α : Type} (a : α) :
    Reads (pure a : Reader α) (fun value bytes => value = a ∧ bytes = []) := by
  intro cursor value cursor'
  constructor
  · intro h
    cases h
    exact ⟨[], ⟨rfl, rfl⟩, Moves.refl _⟩
  · rintro ⟨bytes, ⟨rfl, rfl⟩, h⟩
    rw [h.eq_of_nil]
    rfl

theorem reads_throw {α : Type} (error : Error) :
    Reads (throw error : Reader α) (fun _ _ => False) := by
  intro cursor value cursor'
  constructor
  · intro h
    cases h
  · rintro ⟨bytes, h, -⟩
    exact h.elim

theorem Reads.bind {α β : Type} {first : Reader α} {next : α → Reader β}
    {form : α → Bytes → Prop} {form' : α → β → Bytes → Prop} (h : Reads first form)
    (h' : ∀ a, Reads (next a) (form' a)) :
    Reads (first >>= next) (fun value bytes =>
      ∃ a front back, bytes = front ++ back ∧ form a front ∧ form' a value back) := by
  intro cursor value cursor'
  constructor
  · intro hrun
    obtain ⟨a, middle, hfirst, hnext⟩ := bind_eq_ok_iff.mp hrun
    obtain ⟨front, hf, hm⟩ := (h _ _ _).mp hfirst
    obtain ⟨back, hf', hm'⟩ := (h' _ _ _ _).mp hnext
    exact ⟨front ++ back, ⟨a, front, back, rfl, hf, hf'⟩, hm.trans hm'⟩
  · rintro ⟨bytes, ⟨a, front, back, rfl, hf, hf'⟩, hm⟩
    obtain ⟨middle, hm, hm'⟩ := hm.split
    have hfirst := (h cursor a middle).mpr ⟨front, hf, hm⟩
    have hnext := (h' a middle value cursor').mpr ⟨back, hf', hm'⟩
    exact bind_eq_ok_iff.mpr ⟨a, middle, hfirst, hnext⟩

theorem reads_byte : Reads byte (fun value bytes => bytes = [value]) := by
  intro cursor value cursor'
  unfold byte
  constructor
  · intro h
    split at h
    · cases h
    · rename_i b rest hrest
      cases h
      exact ⟨[value], rfl, hrest, rfl⟩
  · rintro ⟨bytes, rfl, h⟩
    rw [h.rest, List.singleton_append]
    have hoffset := h.offset
    rw [List.length_singleton] at hoffset
    rw [← hoffset]

theorem reads_number : Reads number (fun value bytes => Number.Spells value bytes) := by
  intro cursor value cursor'
  unfold number
  constructor
  · intro h
    split at h
    · rename_i v size rest hscan
      cases h
      obtain ⟨front, hspells, hrest, rfl⟩ := Number.scan_eq_value_iff.mp hscan
      exact ⟨front, hspells, hrest, rfl⟩
    · cases h
    · cases h
  · rintro ⟨bytes, hspells, h⟩
    rw [h.rest, Number.scan_append hspells]
    simp only [← h.offset]

theorem takeWhile_terminated {raw rest : Bytes} (h : 0 ∉ raw) :
    (raw ++ 0 :: rest).takeWhile (· != 0) = raw := by
  rw [List.takeWhile_append_of_pos]
  · simp
  · intro b hb
    exact bne_iff_ne.mpr (ne_of_mem_of_not_mem hb h)

theorem zero_notMem_takeWhile (bytes : Bytes) : 0 ∉ bytes.takeWhile (· != 0) := by
  intro h
  have hall := List.all_eq_true.mp (List.all_takeWhile (p := (· != (0 : UInt8))) (l := bytes)) 0 h
  simp at hall

/-- Behind the bytes up to the first zero byte stands a zero byte, if anything. -/
theorem drop_takeWhile {bytes rest : Bytes} {b : UInt8}
    (h : bytes.drop (bytes.takeWhile (· != 0)).length = b :: rest) :
    b = 0 ∧ bytes = bytes.takeWhile (· != 0) ++ 0 :: rest := by
  have hdrop : bytes.dropWhile (· != 0) = b :: rest := by
    have hsplit := congrArg (List.drop (bytes.takeWhile (· != 0)).length)
      (List.takeWhile_append_dropWhile (p := (· != (0 : UInt8))) (l := bytes))
    rw [List.drop_left] at hsplit
    rw [hsplit, h]
  have hb : b = 0 := by
    have := List.head_dropWhile_not (· != (0 : UInt8)) (l := bytes) (by rw [hdrop]; simp)
    simp only [hdrop, List.head_cons] at this
    simpa using this
  have hwhole := List.takeWhile_append_dropWhile (p := (· != (0 : UInt8))) (l := bytes)
  rw [hdrop, hb] at hwhole
  exact ⟨hb, hwhole.symm⟩

theorem reads_string : Reads string Grammar.Terminated := by
  intro cursor value cursor'
  unfold string
  constructor
  · intro h
    dsimp only at h
    split at h
    · cases h
    · rename_i b rest hdrop
      obtain ⟨-, hrest⟩ := drop_takeWhile hdrop
      cases h
      refine ⟨_, ⟨rfl, zero_notMem_takeWhile _⟩, ?_, ?_⟩
      · rw [List.append_assoc]
        exact hrest
      · rw [List.length_append, List.length_singleton, Nat.add_assoc]
  · rintro ⟨bytes, ⟨rfl, hzero⟩, h⟩
    have hrest : cursor.rest = value ++ 0 :: cursor'.rest := by
      rw [h.rest, List.append_assoc, List.singleton_append]
    have hoffset := h.offset
    rw [List.length_append, List.length_singleton, ← Nat.add_assoc] at hoffset
    simp only [hrest, takeWhile_terminated hzero, List.drop_left, ← hoffset]

theorem reads_bytes (count : Nat) :
    Reads (bytes count) (fun value bytes => bytes = value ∧ value.length = count) := by
  intro cursor value cursor'
  unfold bytes
  constructor
  · intro h
    split at h
    · rename_i hle
      cases h
      have hlen : (cursor.rest.take count).length = count := by
        rw [List.length_take, Nat.min_eq_left hle]
      exact ⟨_, ⟨rfl, hlen⟩, (List.take_append_drop count cursor.rest).symm, by rw [hlen]⟩
    · cases h
  · rintro ⟨bytes, ⟨rfl, rfl⟩, h⟩
    rw [h.rest, if_pos (by simp), List.take_left, List.drop_left, ← h.offset]

theorem reads_counted : Reads counted Grammar.Counted := by
  refine (reads_number.bind fun size => reads_bytes size.toNat).congr ?_
  intro value bytes
  constructor
  · rintro ⟨size, front, back, rfl, hspells, rfl, hlen⟩
    exact ⟨size, front, hspells, hlen.symm, rfl⟩
  · rintro ⟨size, front, hspells, hlen, rfl⟩
    exact ⟨size, front, value, rfl, hspells, rfl, hlen.symm⟩

end Reader

/-! ## Headers -/

namespace Grammar

/-- The number 0 says that an index follows; any other number is the identifier. -/
theorem reads_publicId_of_number (value : UInt32) :
    Reader.Reads (if value = PublicId.indexMark then do
        let offset ← Reader.number
        pure (PublicId.indexed offset)
      else pure (.number value)) (fun id bytes =>
        if value = PublicId.indexMark then
          ∃ offset, Number.Spells offset bytes ∧ id = .indexed offset
        else bytes = [] ∧ id = .number value) := by
  split
  · refine (Reader.reads_number.bind fun offset =>
      Reader.reads_pure (PublicId.indexed offset)).congr ?_
    intro id bytes
    constructor
    · rintro ⟨offset, front, back, rfl, hspells, rfl, rfl⟩
      exact ⟨offset, by simpa using hspells, rfl⟩
    · rintro ⟨offset, hspells, rfl⟩
      exact ⟨offset, bytes, [], by simp, hspells, rfl, rfl⟩
  · exact (Reader.reads_pure _).congr fun id bytes => and_comm

theorem reads_publicId : Reader.Reads PublicId.read PublicIdForm := by
  refine (Reader.reads_number.bind reads_publicId_of_number).congr ?_
  intro id bytes
  constructor
  · rintro ⟨value, front, back, rfl, hspells, hback⟩
    split at hback
    · rename_i hvalue
      obtain ⟨offset, hoffset, rfl⟩ := hback
      exact .indexed (hvalue ▸ hspells) hoffset
    · rename_i hvalue
      obtain ⟨rfl, rfl⟩ := hback
      rw [List.append_nil]
      exact .number hspells hvalue
  · intro h
    cases h with
    | @number value _ hspells hvalue =>
      exact ⟨value, bytes, [], by simp, hspells, by rw [if_neg hvalue]; exact ⟨rfl, rfl⟩⟩
    | @indexed offset front back hmark hspells =>
      exact ⟨_, front, back, rfl, hmark, by rw [if_pos rfl]; exact ⟨offset, hspells, rfl⟩⟩

theorem ofMib?_eq_some_iff {mib : UInt32} {charset : Charset} :
    Charset.ofMib? mib = some charset ↔ mib = charset.mib := by
  constructor
  · intro h
    unfold Charset.ofMib? at h
    split at h
    · cases h; assumption
    · split at h
      · cases h; assumption
      · split at h
        · cases h; assumption
        · cases h
  · rintro rfl
    cases charset <;> decide

theorem mib_ne_unknown (charset : Charset) : charset.mib ≠ Charset.unknownMib := by
  cases charset <;> decide

theorem read_charset_eq : Charset.read = Reader.number >>= fun mib =>
    if mib = Charset.unknownMib then pure .utf8
    else (Charset.ofMib? mib).elim (throw (.decoding (.unknownCharset mib))) pure := by
  unfold Charset.read
  congr 1
  funext mib
  cases Charset.ofMib? mib <;> rfl

theorem reads_charset_of_mib (mib : UInt32) :
    Reader.Reads (if mib = Charset.unknownMib then pure .utf8
      else (Charset.ofMib? mib).elim (throw (.decoding (.unknownCharset mib))) pure)
        (fun charset bytes =>
          bytes = [] ∧ (mib = Charset.unknownMib ∧ charset = .utf8 ∨ mib = charset.mib)) := by
  split
  · rename_i hmib
    refine (Reader.reads_pure Charset.utf8).congr fun charset bytes => ?_
    constructor
    · rintro ⟨rfl, rfl⟩
      exact ⟨rfl, .inl ⟨hmib, rfl⟩⟩
    · rintro ⟨rfl, ⟨-, rfl⟩ | h⟩
      · exact ⟨rfl, rfl⟩
      · exact absurd (h.symm.trans hmib) (mib_ne_unknown charset)
  · rename_i hmib
    cases hfound : Charset.ofMib? mib with
    | some found =>
      refine (Reader.reads_pure found).congr fun charset bytes => ?_
      constructor
      · rintro ⟨rfl, rfl⟩
        exact ⟨rfl, .inr (ofMib?_eq_some_iff.mp hfound)⟩
      · rintro ⟨rfl, ⟨h, -⟩ | h⟩
        · exact absurd h hmib
        · rw [ofMib?_eq_some_iff.mpr h] at hfound
          exact ⟨Option.some.inj hfound, rfl⟩
    | none =>
      refine (Reader.reads_throw _).congr fun charset bytes => ⟨False.elim, ?_⟩
      rintro ⟨rfl, ⟨h, -⟩ | h⟩
      · exact hmib h
      · rw [ofMib?_eq_some_iff.mpr h] at hfound
        cases hfound

theorem reads_charset : Reader.Reads Charset.read CharsetForm := by
  rw [read_charset_eq]
  refine (Reader.reads_number.bind reads_charset_of_mib).congr ?_
  intro charset bytes
  constructor
  · rintro ⟨mib, front, back, rfl, hspells, rfl, ⟨rfl, rfl⟩ | rfl⟩
    · rw [List.append_nil]
      exact .unknown hspells
    · rw [List.append_nil]
      exact .registered hspells
  · intro h
    cases h with
    | unknown hspells => exact ⟨_, bytes, [], by simp, hspells, rfl, .inl ⟨rfl, rfl⟩⟩
    | registered hspells => exact ⟨_, bytes, [], by simp, hspells, rfl, .inr rfl⟩

theorem get_eq_ok_iff {table : StringTable} {offset : UInt32} {raw : Bytes} :
    table.get offset = .ok raw ↔ Holds table.data offset raw := by
  unfold StringTable.get
  constructor
  · intro h
    dsimp only at h
    split at h
    · rename_i hlt
      cases h
      have hne : (table.data.drop offset.toNat).drop
          ((table.data.drop offset.toNat).takeWhile (· != 0)).length ≠ [] := by
        intro hnil
        rw [List.drop_eq_nil_iff] at hnil
        omega
      obtain ⟨b, after, hdrop⟩ := List.exists_cons_of_ne_nil hne
      obtain ⟨-, hrest⟩ := Reader.drop_takeWhile hdrop
      refine ⟨table.data.take offset.toNat, after, ?_, ?_, Reader.zero_notMem_takeWhile _⟩
      · rw [← hrest, List.take_append_drop]
      · rw [List.length_take, Nat.min_eq_left]
        have hlen := congrArg List.length hrest
        rw [List.length_append, List.length_cons, List.length_drop] at hlen
        omega
    · cases h
  · rintro ⟨before, after, htable, hlen, hzero⟩
    have hdrop : table.data.drop offset.toNat = raw ++ 0 :: after := by
      rw [htable, ← hlen, List.drop_left]
    simp only [hdrop, Reader.takeWhile_terminated hzero]
    rw [if_pos (by simp)]

/-- What stands behind the version is read if the version is known. -/
theorem reads_header_of_version (version : UInt8) :
    Reader.Reads (if newestVersion < version then throw (.unsupportedVersion version) else do
        let id ← PublicId.read
        let charset ← Charset.read
        let data ← Reader.counted
        pure (Header.mk version id charset ⟨data⟩)) (fun header bytes =>
          version ≤ newestVersion ∧ header.version = version ∧ ∃ id charset table,
            bytes = id ++ (charset ++ table) ∧ PublicIdForm header.publicId id ∧
              CharsetForm header.charset charset ∧ Counted header.table.data table) := by
  split
  · rename_i hversion
    refine (Reader.reads_throw _).congr fun header bytes => ⟨False.elim, ?_⟩
    rintro ⟨h, -⟩
    exact absurd hversion (UInt8.not_lt.mpr h)
  · rename_i hversion
    refine (reads_publicId.bind fun id => reads_charset.bind fun charset =>
      Reader.reads_counted.bind fun data =>
        Reader.reads_pure (Header.mk version id charset ⟨data⟩)).congr fun header bytes => ?_
    constructor
    · rintro ⟨_, id, _, rfl, hid, _, charset, _, rfl, hcharset, _, table, _, rfl, htable, rfl, rfl⟩
      exact ⟨UInt8.not_lt.mp hversion, rfl, id, charset, table, by simp, hid, hcharset, htable⟩
    · rintro ⟨-, rfl, id, charset, table, rfl, hid, hcharset, htable⟩
      exact ⟨_, id, _, rfl, hid, _, charset, _, rfl, hcharset, _, table, [], by simp, htable,
        rfl, rfl⟩

theorem reads_header : Reader.Reads Header.read (fun header bytes =>
    header.version ≤ newestVersion ∧ ∃ id charset table,
      bytes = header.version :: (id ++ (charset ++ table)) ∧ PublicIdForm header.publicId id ∧
        CharsetForm header.charset charset ∧ Counted header.table.data table) := by
  have hthrow (version : UInt8) (k : PUnit → Reader Header) :
      (throw (Error.unsupportedVersion version) >>= k : Reader Header) =
        throw (.unsupportedVersion version) := rfl
  unfold Header.read
  simp only [hthrow]
  refine (Reader.reads_byte.bind reads_header_of_version).congr fun header bytes => ?_
  constructor
  · rintro ⟨version, front, back, rfl, rfl, hversion, rfl, id, charset, table, rfl, hforms⟩
    exact ⟨hversion, id, charset, table, rfl, hforms⟩
  · rintro ⟨hversion, id, charset, table, rfl, hforms⟩
    exact ⟨_, [_], _, rfl, rfl, hversion, rfl, id, charset, table, rfl, hforms⟩

/-- The reports on a header exist exactly if an identifier by offset names a string. -/
theorem warnings_isOk_iff (header : Header) (language : Language) :
    (∃ events, header.warnings language = .ok events) ↔
      ∀ offset, header.publicId = .indexed offset → ∃ raw, Holds header.table.data offset raw := by
  unfold Header.warnings
  cases hid : header.publicId with
  | number value =>
    constructor
    · rintro - offset h
      cases h
    · intro
      dsimp only
      split
      · exact ⟨_, rfl⟩
      · exact ⟨_, rfl⟩
  | indexed offset =>
    dsimp only
    cases hget : header.table.get offset with
    | error error =>
      constructor
      · rintro ⟨events, h⟩
        cases h
      · intro h
        obtain ⟨raw, hraw⟩ := h offset rfl
        rw [get_eq_ok_iff.mpr hraw] at hget
        cases hget
    | ok raw =>
      constructor
      · rintro - _ ⟨⟩
        exact ⟨raw, get_eq_ok_iff.mp hget⟩
      · intro
        by_cases h : raw = Utf8.encode language.fpi
        · exact ⟨[], by simp [bind, Except.bind, h, pure, Except.pure]⟩
        · exact ⟨_, by simp [bind, Except.bind, h, pure, Except.pure]; rfl⟩

end Grammar

end BinaryXml
