import BinaryXml.Proofs.Document.Equality
import BinaryXml.Proofs.Stream.RoundTrip

/-! # Streams that are cut off or go on

* `Error.EndsEarly`: an error that says that bytes are missing.
* `Prolongs prolong short long state`: with more bytes to read, the second step does what the first
  one does without them, unless the first one misses bytes. `Prolongs.bind` puts two steps together.
* `prolongs_header`, `prolongs_attributes` and `prolongs_content`: so it is for the parts of a
  stream, one case per kind of token.
* `decodeDocument_cut_or_prolonged`: no stream is the front of another one. What is cut off misses
  bytes, and what goes on has bytes behind its document.
-/

namespace BinaryXml

set_option autoImplicit false

/-- An error that says that bytes are missing at the end. -/
def Error.EndsEarly (error : Error) : Prop :=
  error.kind = .truncatedStream ∨ error.kind = .unterminatedString

/-- A place with more bytes behind those that are left. -/
def Cursor.prolong (more : Bytes) (cursor : Cursor) : Cursor :=
  ⟨cursor.offset, cursor.rest ++ more⟩

/-- A state of the decoder with more bytes to read. -/
def Decoding.State.prolong (more : Bytes) (state : Decoding.State) : Decoding.State :=
  { state with cursor := state.cursor.prolong more }

theorem Moves.prolong {cursor cursor' : Cursor} {bytes : Bytes} (h : Moves cursor cursor' bytes)
    (more : Bytes) : Moves (cursor.prolong more) (cursor'.prolong more) bytes :=
  ⟨by simp [Cursor.prolong, h.rest], h.offset⟩

theorem exists_succ_of_prolong {cursor : Cursor} {more : Bytes} {bound : Nat}
    (hrest : cursor.rest ≠ []) (hbound : (cursor.prolong more).rest.length ≤ bound) :
    ∃ less, bound = less + 1 := by
  have hpos := List.length_pos_iff.mpr hrest
  simp only [Cursor.prolong, List.length_append] at hbound
  exact ⟨bound - 1, by omega⟩

/-! ## Steps that read more bytes -/

/-- A step does with more bytes what another one does without them, unless that one misses
bytes. -/
def Prolongs {σ α : Type} (prolong : σ → σ) (short long : EStateM Error σ α) (state : σ) : Prop :=
  match short state with
  | .ok value last => long (prolong state) = .ok value (prolong last)
  | .error error _ => error.EndsEarly ∨ ∃ last, long (prolong state) = .error error last

section Steps
variable {σ α β : Type} {prolong : σ → σ} {state : σ}

theorem prolongs_of_ok {short long : EStateM Error σ α} (value : α) (last : σ)
    (h : short state = .ok value last) (h' : long (prolong state) = .ok value (prolong last)) :
    Prolongs prolong short long state := by
  simp only [Prolongs, h, h']

theorem prolongs_of_endsEarly {short long : EStateM Error σ α} {error : Error} {last : σ}
    (h : short state = .error error last) (early : error.EndsEarly) :
    Prolongs prolong short long state := by
  simp only [Prolongs, h]
  exact .inl early

theorem prolongs_of_error {short long : EStateM Error σ α} {error : Error} {last : σ}
    (h : short state = .error error last) (last' : σ) (h' : long (prolong state) = .error error last') :
    Prolongs prolong short long state := by
  simp only [Prolongs, h]
  exact .inr ⟨last', h'⟩

theorem Prolongs.congr {short short' long long' : EStateM Error σ α}
    (h : short state = short' state) (h' : long (prolong state) = long' (prolong state))
    (hprolongs : Prolongs prolong short' long' state) : Prolongs prolong short long state := by
  unfold Prolongs at hprolongs ⊢
  rwa [h, h']

theorem prolongs_pure (a : α) : Prolongs prolong (pure a) (pure a) state := rfl

theorem prolongs_throw (error : Error) :
    Prolongs prolong (throw error : EStateM Error σ α) (throw error) state :=
  .inr ⟨prolong state, rfl⟩

theorem Prolongs.bind {first first' : EStateM Error σ α} {next next' : α → EStateM Error σ β}
    (h : Prolongs prolong first first' state)
    (h' : ∀ a middle, first state = .ok a middle → Prolongs prolong (next a) (next' a) middle) :
    Prolongs prolong (first >>= next) (first' >>= next') state := by
  unfold Prolongs at h
  change (match EStateM.bind first next state with
    | .ok value last => EStateM.bind first' next' (prolong state) = .ok value (prolong last)
    | .error error _ => error.EndsEarly ∨
      ∃ last, EStateM.bind first' next' (prolong state) = .error error last)
  unfold EStateM.bind
  cases hfirst : first state with
  | ok a middle =>
    rw [hfirst] at h
    simp only [h]
    exact h' a middle hfirst
  | error error middle =>
    rw [hfirst] at h
    refine h.imp_right fun ⟨last, hlast⟩ => ⟨last, ?_⟩
    simp only [hlast]

theorem Prolongs.ite {c : Prop} [Decidable c] {first first' second second' : EStateM Error σ α}
    (h : c → Prolongs prolong first first' state)
    (h' : ¬ c → Prolongs prolong second second' state) :
    Prolongs prolong (if c then first else second) (if c then first' else second') state := by
  split
  · exact h ‹c›
  · exact h' ‹¬ c›

/-- Where both steps end well, what is left is left in both. -/
theorem Prolongs.ok_of_ok {short long : EStateM Error σ α} (h : Prolongs prolong short long state)
    {value : α} {last : σ} (hrun : short state = .ok value last) :
    long (prolong state) = .ok value (prolong last) := by
  simpa only [Prolongs, hrun] using h

/-- What ends well with more bytes ends the same way without them, or misses bytes. -/
theorem Prolongs.of_long {short long : EStateM Error σ α} (h : Prolongs prolong short long state)
    {value : α} {last : σ} (hrun : long (prolong state) = .ok value last) :
    (∃ last', short state = .ok value last' ∧ last = prolong last') ∨
      ∃ error last', short state = .error error last' ∧ error.EndsEarly := by
  unfold Prolongs at h
  cases hshort : short state with
  | ok value' last' =>
    rw [hshort] at h
    cases hrun.symm.trans h
    exact .inl ⟨last', rfl, rfl⟩
  | error error last' =>
    rw [hshort] at h
    rcases h with early | ⟨_, herror⟩
    · exact .inr ⟨error, last', rfl, early⟩
    · cases hrun.symm.trans herror

end Steps

/-! ## Readers -/

theorem Number.scanFrom_append (more : Bytes) (value size : Nat) (bytes : Bytes) :
    scanFrom value size bytes = .truncated ∨
      scanFrom value size (bytes ++ more) = match scanFrom value size bytes with
        | .value value size rest => .value value size (rest ++ more)
        | .overflow size rest => .overflow size (rest ++ more)
        | .truncated => .truncated := by
  induction bytes generalizing value size with
  | nil => exact .inl rfl
  | cons b rest ih =>
    simp only [List.cons_append, scanFrom]
    split
    · exact .inr rfl
    · split
      · exact .inr rfl
      · exact ih _ _

namespace Reader

section Readers
variable {more : Bytes} {cursor : Cursor}

theorem prolongs_byte : Prolongs (Cursor.prolong more) byte byte cursor := by
  obtain ⟨offset, rest⟩ := cursor
  cases rest with
  | nil => exact prolongs_of_endsEarly rfl (.inl rfl)
  | cons b rest => exact prolongs_of_ok _ _ rfl rfl

theorem prolongs_number : Prolongs (Cursor.prolong more) number number cursor := by
  obtain ⟨offset, rest⟩ := cursor
  have hscan := Number.scanFrom_append more 0 0 rest
  cases h : Number.scan rest with
  | truncated =>
    have hshort : number ⟨offset, rest⟩ = .error (.truncated offset .number) ⟨offset, rest⟩ := by
      simp only [number, h]
    exact prolongs_of_endsEarly hshort (.inl rfl)
  | value value size rest' =>
    rw [Number.scan] at h
    simp only [h, reduceCtorEq, false_or] at hscan
    refine prolongs_of_ok value ⟨offset + size, rest'⟩ ?_ ?_
    · simp only [number, Number.scan, h]
    · simp only [number, Number.scan, Cursor.prolong, hscan]
  | overflow size rest' =>
    rw [Number.scan] at h
    simp only [h, reduceCtorEq, false_or] at hscan
    have hshort : number ⟨offset, rest⟩ =
        .error (.decoding (.numberOverflow offset)) ⟨offset + size, rest'⟩ := by
      simp only [number, Number.scan, h]
    refine prolongs_of_error hshort ⟨offset + size, rest' ++ more⟩ ?_
    simp only [number, Number.scan, Cursor.prolong, hscan]

theorem prolongs_string : Prolongs (Cursor.prolong more) string string cursor := by
  obtain ⟨offset, rest⟩ := cursor
  cases hdrop : rest.drop (rest.takeWhile (· != 0)).length with
  | nil =>
    have hshort : string ⟨offset, rest⟩ = .error (.unterminated offset) ⟨offset, rest⟩ := by
      simp only [string, hdrop]
    exact prolongs_of_endsEarly hshort (.inr rfl)
  | cons b behind =>
    have hrest := (drop_takeWhile hdrop).2
    have hzero := zero_notMem_takeWhile rest
    generalize rest.takeWhile (· != 0) = raw at hrest hzero
    subst hrest
    refine prolongs_of_ok raw ⟨offset + raw.length + 1, behind⟩ ?_ ?_
    · simp only [string, takeWhile_terminated hzero, List.drop_left]
    · simp only [string, Cursor.prolong, List.append_assoc, List.cons_append,
        takeWhile_terminated hzero, List.drop_left]

theorem prolongs_bytes (count : Nat) :
    Prolongs (Cursor.prolong more) (bytes count) (bytes count) cursor := by
  obtain ⟨offset, rest⟩ := cursor
  by_cases h : count ≤ rest.length
  · have hlonger : count ≤ (rest ++ more).length := by simp; omega
    refine prolongs_of_ok (rest.take count) ⟨offset + count, rest.drop count⟩ ?_ ?_
    · simp only [bytes, h, if_true]
    · simp only [bytes, Cursor.prolong, hlonger, if_true, List.take_append_of_le_length h,
        List.drop_append_of_le_length h]
  · have hshort : bytes count ⟨offset, rest⟩ =
        .error (.truncated offset .bytes) ⟨offset, rest⟩ := by
      simp only [bytes, h, if_false]
    exact prolongs_of_endsEarly hshort (.inl rfl)

theorem prolongs_counted : Prolongs (Cursor.prolong more) counted counted cursor :=
  prolongs_number.bind fun size _ _ => prolongs_bytes size.toNat

theorem prolongs_publicId : Prolongs (Cursor.prolong more) PublicId.read PublicId.read cursor :=
  prolongs_number.bind fun _ _ _ => .ite
    (fun _ => prolongs_number.bind fun offset _ _ => prolongs_pure (PublicId.indexed offset))
    fun _ => prolongs_pure _

theorem prolongs_charset : Prolongs (Cursor.prolong more) Charset.read Charset.read cursor := by
  refine prolongs_number.bind fun mib _ _ => .ite (fun _ => prolongs_pure _) fun _ => ?_
  cases Charset.ofMib? mib with
  | none => exact prolongs_throw _
  | some charset => exact prolongs_pure charset

theorem prolongs_header : Prolongs (Cursor.prolong more) Header.read Header.read cursor := by
  refine prolongs_byte.bind fun version _ _ => ?_
  refine .ite (fun _ => (prolongs_throw _).bind fun _ _ hrun => by cases hrun) fun _ => ?_
  exact prolongs_publicId.bind fun _ _ _ => prolongs_charset.bind fun _ _ _ =>
    prolongs_counted.bind fun _ _ _ => prolongs_pure _

end Readers

end Reader

namespace Decoding

/-! ## Steps of the decoder -/

section Decode
variable {context : Context} {more : Bytes} {state : State}

theorem prolongs_read {α : Type} {reader : Reader α}
    (h : Prolongs (Cursor.prolong more) reader reader state.cursor) :
    Prolongs (State.prolong more) (read reader) (read reader) state := by
  unfold Prolongs at h
  cases hrun : reader state.cursor with
  | ok value cursor =>
    rw [hrun] at h
    refine prolongs_of_ok value { state with cursor } ?_ ?_
    · simp only [read, hrun]
    · simp only [read, State.prolong, h]
  | error error cursor =>
    rw [hrun] at h
    have hshort : read reader state = .error error { state with cursor } := by
      simp only [read, hrun]
    rcases h with early | ⟨last, hlong⟩
    · exact prolongs_of_endsEarly hshort early
    · refine prolongs_of_error hshort { state with cursor := last } ?_
      simp only [read, State.prolong, hlong]

theorem prolongs_lift {α : Type} (result : Except Error α) :
    Prolongs (State.prolong more) (lift result) (lift result) state := by
  cases result with
  | ok value => exact prolongs_pure value
  | error error => exact prolongs_throw error

theorem prolongs_switchTagPage :
    Prolongs (State.prolong more) switchTagPage switchTagPage state :=
  (prolongs_read Reader.prolongs_byte).bind fun _ _ _ => rfl

theorem prolongs_switchAttributePage :
    Prolongs (State.prolong more) switchAttributePage switchAttributePage state :=
  (prolongs_read Reader.prolongs_byte).bind fun _ _ _ => rfl

theorem prolongs_unknownTag {α : Type} (token : UInt8) (role : TokenRole) :
    Prolongs (State.prolong more) (unknownTag token role : Decode α) (unknownTag token role) state :=
  .inr ⟨_, rfl⟩

theorem prolongs_unknownAttribute {α : Type} (token : UInt8) (role : TokenRole) :
    Prolongs (State.prolong more) (unknownAttribute token role : Decode α)
      (unknownAttribute token role) state :=
  .inr ⟨_, rfl⟩

theorem prolongs_string (kind : StringToken) :
    Prolongs (State.prolong more) (string context kind) (string context kind) state := by
  cases kind with
  | inline => exact (prolongs_read Reader.prolongs_string).bind fun _ _ _ => prolongs_lift _
  | table => exact (prolongs_read Reader.prolongs_number).bind fun _ _ _ => prolongs_lift _
  | entity =>
    refine (prolongs_read Reader.prolongs_number).bind fun code _ _ => ?_
    cases Scalar.char? code.toNat with
    | some c => exact prolongs_pure _
    | none => exact prolongs_throw _
  | data => exact (prolongs_read Reader.prolongs_counted).bind fun _ _ _ => prolongs_pure _

theorem prolongs_literalName :
    Prolongs (State.prolong more) (literalName context) (literalName context) state :=
  .ite (fun _ => prolongs_string .inline) fun _ => prolongs_string .table

/-- Where no byte is left, a step that begins with one misses it. -/
theorem prolongs_of_atEnd {α : Type} {next : UInt8 → Decode α} {long : Decode α}
    (h : state.cursor.rest = []) :
    Prolongs (State.prolong more) (read Reader.byte >>= next) long state := by
  have hshort : (read Reader.byte >>= next) state =
      .error (.truncated state.cursor.offset .byte) state :=
    bind_of_error (by simp only [read, Reader.byte, h])
  exact prolongs_of_endsEarly hshort (.inl rfl)

theorem Prolongs.byteThen {α : Type} {next next' : UInt8 → Decode α}
    (h : ∀ token state', Moves state.cursor state'.cursor [token] →
      Prolongs (State.prolong more) (next token) (next' token) state') :
    Prolongs (State.prolong more) (read Reader.byte >>= next) (read Reader.byte >>= next') state := by
  refine (prolongs_read Reader.prolongs_byte).bind fun token state' hrun => ?_
  obtain ⟨_, ⟨rfl, -⟩, hm⟩ := (reads_read Reader.reads_byte).sound hrun
  exact h token state' hm

theorem Prolongs.getThen {α : Type} {next next' : State → Decode α}
    (h : Prolongs (State.prolong more) (next state) (next' (state.prolong more)) state) :
    Prolongs (State.prolong more) (get >>= next) (get >>= next') state :=
  h

theorem Prolongs.remainingThen {α : Type} {next next' : Nat → Decode α}
    (h : Prolongs (State.prolong more) (next state.cursor.rest.length)
      (next' (state.cursor.prolong more).rest.length) state) :
    Prolongs (State.prolong more) (remaining >>= next) (remaining >>= next') state :=
  h

/-- A list of attributes is read in the same way with more bytes behind it. -/
theorem prolongs_attributes (bound : Nat) {bound' : Nat} (current : Option Attribute)
    (hbound : state.cursor.rest.length ≤ bound)
    (hbound' : (state.cursor.prolong more).rest.length ≤ bound') :
    Prolongs (State.prolong more) (attributes context bound current)
      (attributes context bound' current) state := by
  -- The reader of the shorter bytes sets the pace: where it comes to their end there is nothing to
  -- show, and before that both bounds go down by one.
  induction bound generalizing bound' current state with
  | zero => exact prolongs_of_atEnd (List.eq_nil_of_length_eq_zero (Nat.le_zero.mp hbound))
  | succ bound ih =>
    by_cases hend : state.cursor.rest = []
    · exact prolongs_of_atEnd hend
    obtain ⟨bound', rfl⟩ := exists_succ_of_prolong hend hbound'
    refine Prolongs.byteThen fun token state' hm => ?_
    replace hbound := hm.length_le_of_byte hbound
    replace hbound' := (hm.prolong more).length_le_of_byte hbound'
    have hnext {front : Bytes} {later : State} (hm' : Moves state'.cursor later.cursor front)
        (current : Option Attribute) : Prolongs (State.prolong more)
          (attributes context bound current) (attributes context bound' current) later :=
      ih current (hm'.length_le_of_le hbound) ((hm'.prolong more).length_le_of_le hbound')
    cases htoken : AttributeToken.ofByte token with
    | finish => exact prolongs_pure _
    | switchPage =>
      refine prolongs_switchAttributePage.bind fun _ later hrun => ?_
      obtain ⟨_, -, hm'⟩ := reads_switchAttributePage.sound hrun
      exact hnext hm' current
    | literal =>
      refine prolongs_literalName.bind fun name later hrun => ?_
      obtain ⟨_, -, hm'⟩ := (reads_literalName context).sound hrun
      exact (hnext hm' _).bind fun _ _ _ => prolongs_pure _
    | string kind =>
      refine (prolongs_string kind).bind fun text later hrun => ?_
      obtain ⟨_, -, hm'⟩ := (reads_string context kind).sound hrun
      refine (prolongs_lift _).bind fun current last hrun' => ?_
      obtain ⟨_, -, hm''⟩ := (reads_lift _).sound hrun'
      exact hnext (hm'.trans hm'') current
    | reserved => exact prolongs_unknownAttribute token .attribute
    | start =>
      refine Prolongs.getThen ?_
      dsimp only [State.prolong]
      cases context.language.attributeStartAt? state'.attributePage token with
      | some entry => exact (hnext (Moves.refl _) _).bind fun _ _ _ => prolongs_pure _
      | none => exact prolongs_unknownAttribute token .attributeStart
    | value =>
      refine Prolongs.getThen ?_
      dsimp only [State.prolong]
      cases context.language.attributeValueAt? state'.attributePage token with
      | some entry =>
        refine (prolongs_lift _).bind fun current later hrun => ?_
        obtain ⟨_, -, hm'⟩ := (reads_lift _).sound hrun
        exact hnext hm' current
      | none => exact prolongs_unknownAttribute token .attributeValue

theorem prolongs_tag (token : UInt8) :
    Prolongs (State.prolong more) (tag context token) (tag context token) state := by
  unfold tag
  refine .ite (fun _ => prolongs_literalName.bind fun _ _ _ => prolongs_pure _) fun _ =>
    .ite (fun _ => Prolongs.getThen ?_) fun _ => prolongs_unknownTag token .tag
  dsimp only [State.prolong]
  cases context.language.tagName? state.tagPage (Code.base token) with
  | some name => exact prolongs_pure _
  | none => exact prolongs_unknownTag token .tag

theorem prolongs_optionalAttributes (token : UInt8) : Prolongs (State.prolong more)
    (if token &&& Code.hasAttributes ≠ 0 then do attributes context (← remaining) none
      else pure [])
    (if token &&& Code.hasAttributes ≠ 0 then do attributes context (← remaining) none
      else pure []) state :=
  .ite (fun _ => Prolongs.remainingThen (prolongs_attributes _ none (Nat.le_refl _) (Nat.le_refl _)))
    fun _ => prolongs_pure _

theorem prolongs_element {inner inner' : Decode (List Node)} {depth : Nat} (token : UInt8)
    (h : ∀ state' front, Moves state.cursor state'.cursor front →
      Prolongs (State.prolong more) inner inner' state') :
    Prolongs (State.prolong more) (element context inner depth token)
      (element context inner' depth token) state := by
  rw [element_eq, element_eq]
  refine .ite (fun _ => prolongs_throw _) fun _ => ?_
  refine (prolongs_tag token).bind fun start state' hrun => ?_
  obtain ⟨_, -, hm⟩ := (reads_tag token).sound hrun
  refine (prolongs_optionalAttributes token).bind fun list state'' hrun' => ?_
  obtain ⟨_, -, hm'⟩ := (reads_optionalAttributes token).sound hrun'
  refine Prolongs.bind (.ite (fun _ => ?_) fun _ => prolongs_pure _) fun _ _ _ => prolongs_pure _
  exact h state'' _ (hm.trans hm')

theorem prolongs_content (bound : Nat) {bound' : Nat} (depth : Nat)
    (hbound : state.cursor.rest.length ≤ bound)
    (hbound' : (state.cursor.prolong more).rest.length ≤ bound') :
    Prolongs (State.prolong more) (content context bound depth) (content context bound' depth)
      state := by
  -- Both bounds go down by one with each token, as in a list of attributes.
  induction bound generalizing bound' depth state with
  | zero => exact prolongs_of_atEnd (List.eq_nil_of_length_eq_zero (Nat.le_zero.mp hbound))
  | succ bound ih =>
    by_cases hend : state.cursor.rest = []
    · exact prolongs_of_atEnd hend
    obtain ⟨bound', rfl⟩ := exists_succ_of_prolong hend hbound'
    refine Prolongs.byteThen fun token state' hm => ?_
    replace hbound := hm.length_le_of_byte hbound
    replace hbound' := (hm.prolong more).length_le_of_byte hbound'
    have hnext {front : Bytes} {later : State} (hm' : Moves state'.cursor later.cursor front)
        (depth : Nat) : Prolongs (State.prolong more)
          (content context bound depth) (content context bound' depth) later :=
      ih depth (hm'.length_le_of_le hbound) ((hm'.prolong more).length_le_of_le hbound')
    cases htoken : ContentToken.ofByte token with
    | finish => exact prolongs_pure _
    | switchPage =>
      refine prolongs_switchTagPage.bind fun _ later hrun => ?_
      obtain ⟨_, -, hm'⟩ := reads_switchTagPage.sound hrun
      exact hnext hm' depth
    | string kind =>
      refine (prolongs_string kind).bind fun text later hrun => ?_
      obtain ⟨_, -, hm'⟩ := (reads_string context kind).sound hrun
      exact (hnext hm' depth).bind fun _ _ _ => prolongs_pure _
    | reserved => exact prolongs_unknownTag token .content
    | tag =>
      refine (prolongs_element token fun later _ hm' => hnext hm' (depth + 1)).bind
        fun child later hrun => ?_
      obtain ⟨_, -, hm'⟩ := (reads_element token fun later _ hm'' =>
        reads_content bound (depth + 1) (hm''.length_le_of_le hbound)).sound hrun
      exact (hnext hm' depth).bind fun _ _ _ => prolongs_pure _

/-! ## Streams -/

theorem prolongs_outermost :
    Prolongs (State.prolong more) (outermost context) (outermost context) state := by
  refine Prolongs.byteThen fun token state' _ => Prolongs.remainingThen ?_
  exact prolongs_element token fun later _ hm' =>
    prolongs_content _ 1 (hm'.length_le_of_le (Nat.le_refl _))
      ((hm'.prolong more).length_le_of_le (Nat.le_refl _))

/-- Reads everything up to the end of the outermost element. -/
def leading (context : Context) (bound : Nat) : Decode Element :=
  leadingPages bound >>= fun _ => outermost context

theorem body_eq_leading (context : Context) :
    body context = (remaining >>= leading context) >>= ending := by
  simp only [body_eq, leading, bind_assoc]

theorem leading_of_head (bound : Nat) (h : state.cursor.rest.head? ≠ some Code.switchPage) :
    leading context bound state = outermost context state := by
  unfold leading
  cases bound with
  | zero => rfl
  | succ bound => rw [leadingPages_succ, if_neg h]

theorem leading_of_switchPage (bound : Nat)
    (h : state.cursor.rest.head? = some Code.switchPage) :
    leading context (bound + 1) state =
      ((do let _ ← read Reader.byte; switchTagPage) >>= fun _ => leading context bound) state := by
  unfold leading
  rw [leadingPages_succ, if_pos h]

theorem prolongs_switch : Prolongs (State.prolong more)
    (do let _ ← read Reader.byte; switchTagPage) (do let _ ← read Reader.byte; switchTagPage)
    state :=
  (prolongs_read Reader.prolongs_byte).bind fun _ _ _ => prolongs_switchTagPage

/-- The changes of page in front of the outermost element are looked for byte by byte, so an end
among them is found by what reads the element. -/
theorem prolongs_leading (bound : Nat) {bound' : Nat} (hbound : state.cursor.rest.length ≤ bound)
    (hbound' : (state.cursor.prolong more).rest.length ≤ bound') :
    Prolongs (State.prolong more) (leading context bound) (leading context bound') state := by
  induction bound generalizing bound' state with
  | zero =>
    have hend := List.eq_nil_of_length_eq_zero (Nat.le_zero.mp hbound)
    exact prolongs_of_atEnd hend
  | succ bound ih =>
    by_cases hend : state.cursor.rest = []
    · refine Prolongs.congr (leading_of_head _ (by simp [hend])) rfl ?_
      exact prolongs_of_atEnd hend
    have hlonger : (state.prolong more).cursor.rest.head? = state.cursor.rest.head? := by
      simp [State.prolong, Cursor.prolong, List.head?_append_of_ne_nil _ hend]
    by_cases hhead : state.cursor.rest.head? = some Code.switchPage
    · obtain ⟨bound', rfl⟩ := exists_succ_of_prolong hend hbound'
      refine Prolongs.congr (leading_of_switchPage bound hhead)
        (leading_of_switchPage bound' (hlonger.trans hhead)) ?_
      refine prolongs_switch.bind fun _ later hrun => ?_
      obtain ⟨_, ⟨token, page, rfl, -⟩, hm⟩ := (reads_switch state).sound hrun
      have hless := hm.length_add
      have hless' := (hm.prolong more).length_add
      simp only [List.length_cons, List.length_nil] at hless hless'
      exact ih (by omega) (by omega)
    · refine Prolongs.congr (leading_of_head _ hhead) (leading_of_head _ ?_) prolongs_outermost
      rwa [hlonger]

theorem moves_leading (bound : Nat) {root : Element} {last : State}
    (h : leading context bound state = .ok root last) :
    ∃ bytes, Moves state.cursor last.cursor bytes := by
  induction bound generalizing state with
  | zero =>
    obtain ⟨bytes, -, hm⟩ := reads_outermost.sound (show outermost context state = .ok root last from h)
    exact ⟨bytes, hm⟩
  | succ bound ih =>
    by_cases hhead : state.cursor.rest.head? = some Code.switchPage
    · rw [leading_of_switchPage bound hhead] at h
      obtain ⟨_, middle, hswitch, hnext⟩ := bind_eq_ok_iff.mp h
      obtain ⟨front, -, hm⟩ := (reads_switch state).sound hswitch
      obtain ⟨back, hm'⟩ := ih hnext
      exact ⟨front ++ back, hm.trans hm'⟩
    · rw [leading_of_head _ hhead] at h
      obtain ⟨bytes, -, hm⟩ := reads_outermost.sound h
      exact ⟨bytes, hm⟩

/-- The body of a stream with all its bytes, or with more. -/
theorem body_eq_ok_iff_leading {document : Document} {last : State} :
    body context state = .ok document last ↔
      leading context state.cursor.rest.length state = .ok document.root last ∧
        last.cursor.rest = [] := by
  rw [body_eq_leading, bind_eq_ok_iff]
  constructor
  · rintro ⟨root, middle, hroot, hending⟩
    obtain ⟨hend, rfl, rfl⟩ := ending_eq_ok_iff.mp hending
    exact ⟨hroot, hend⟩
  · rintro ⟨hroot, hend⟩
    exact ⟨document.root, last, hroot, ending_eq_ok_iff.mpr ⟨hend, rfl, rfl⟩⟩

theorem body_of_leading_error {error : Error} {last : State}
    (h : leading context state.cursor.rest.length state = .error error last) :
    body context state = .error error last := by
  rw [body_eq_leading]
  exact bind_of_error h

theorem body_of_trailing {root : Element} {last : State}
    (h : leading context state.cursor.rest.length state = .ok root last)
    (hrest : last.cursor.rest ≠ []) :
    body context state = .error (.decoding (.trailingData last.cursor.offset)) last := by
  have hleading : (remaining >>= leading context) state = .ok root last := h
  have hending : last.cursor.atEnd = false := by simpa [Cursor.atEnd] using hrest
  rw [body_eq_leading, bind_of_ok hleading]
  change (if last.cursor.atEnd then pure ⟨root⟩
    else throw (.decoding (.trailingData last.cursor.offset)) : Decode Document) last = _
  rw [hending]
  rfl

end Decode

section Streams
variable {options : DecodeOptions}

theorem run_eq_ok {stream : Bytes} {document : Document}
    (h : decodeDocument options stream = .ok document) : ∃ header cursor events last,
      Header.read (Cursor.ofBytes stream) = .ok header cursor ∧
        header.warnings options.language = .ok events ∧
          leading (Context.of options header) cursor.rest.length { cursor, events } =
            .ok document.root last ∧ last.cursor.rest = [] := by
  unfold decodeDocument run at h
  split at h
  · cases h
  rename_i header cursor hheader
  split at h
  · cases h
  rename_i events hevents
  split at h
  · rename_i document' last hbody
    cases h
    obtain ⟨hleading, hend⟩ := body_eq_ok_iff_leading.mp hbody
    exact ⟨header, cursor, events, last, hheader, hevents, hleading, hend⟩
  · cases h

theorem decodeDocument_of_header_error {stream : Bytes} {error : Error} {cursor : Cursor}
    (h : Header.read (Cursor.ofBytes stream) = .error error cursor) :
    decodeDocument options stream = .error error := by
  simp only [decodeDocument, run, h]

theorem decodeDocument_of_body {stream : Bytes} {header : Header} {cursor : Cursor}
    {events : List Event} {document : Document} {last : State}
    (hheader : Header.read (Cursor.ofBytes stream) = .ok header cursor)
    (hevents : header.warnings options.language = .ok events)
    (hbody : body (Context.of options header) { cursor, events } = .ok document last) :
    decodeDocument options stream = .ok document := by
  simp only [decodeDocument, run, hheader, hevents, hbody]

theorem decodeDocument_of_body_error {stream : Bytes} {header : Header} {cursor : Cursor}
    {events : List Event} {error : Error} {last : State}
    (hheader : Header.read (Cursor.ofBytes stream) = .ok header cursor)
    (hevents : header.warnings options.language = .ok events)
    (hbody : body (Context.of options header) { cursor, events } = .error error last) :
    decodeDocument options stream = .error error := by
  simp only [decodeDocument, run, hheader, hevents, hbody]

/-- No front of a stream is a stream: it misses bytes. -/
theorem decodeDocument_of_cut {front more : Bytes} {document : Document} (hmore : more ≠ [])
    (h : decodeDocument options (front ++ more) = .ok document) :
    ∃ error, decodeDocument options front = .error error ∧ error.EndsEarly := by
  obtain ⟨header, cursor, events, last, hheader, hevents, hleading, hend⟩ := run_eq_ok h
  have hlonger : Prolongs (Cursor.prolong more) Header.read Header.read (Cursor.ofBytes front) :=
    Reader.prolongs_header
  rcases hlonger.of_long hheader with ⟨cursor, hheader', rfl⟩ | ⟨error, place, herror, early⟩
  · have hbody : Prolongs (State.prolong more) (leading (Context.of options header) _)
        (leading (Context.of options header) _) { cursor, events } :=
      prolongs_leading cursor.rest.length (Nat.le_refl _) (Nat.le_refl _)
    rcases hbody.of_long hleading with ⟨last, -, rfl⟩ | ⟨error, place, herror, early⟩
    · exact absurd (List.append_eq_nil_iff.mp hend).2 hmore
    · exact ⟨error, decodeDocument_of_body_error hheader' hevents (body_of_leading_error herror),
        early⟩
  · exact ⟨error, decodeDocument_of_header_error herror, early⟩

/-- Whatever follows a stream is found behind its document. -/
theorem decodeDocument_of_prolonged {stream more : Bytes} {document : Document} (hmore : more ≠ [])
    (h : decodeDocument options stream = .ok document) :
    decodeDocument options (stream ++ more) = .error (.decoding (.trailingData stream.length)) := by
  obtain ⟨header, cursor, events, last, hheader, hevents, hleading, hend⟩ := run_eq_ok h
  have hheader' : Header.read (Cursor.ofBytes (stream ++ more)) = .ok header (cursor.prolong more) :=
    Reader.prolongs_header.ok_of_ok hheader
  have hleading' : leading (Context.of options header) (cursor.prolong more).rest.length
      { cursor := cursor.prolong more, events } = .ok document.root (last.prolong more) :=
    (prolongs_leading cursor.rest.length (Nat.le_refl _) (Nat.le_refl _)).ok_of_ok hleading
  have hrest : (last.prolong more).cursor.rest ≠ [] := by
    simp [State.prolong, Cursor.prolong, hend, hmore]
  have hoffset : (last.prolong more).cursor.offset = stream.length := by
    obtain ⟨front, -, hm⟩ := (Grammar.reads_header _ _ _).mp hheader
    obtain ⟨back, hm'⟩ := moves_leading _ hleading
    have hfront := hm.length_add
    have hback := hm'.length_add
    have hm := hm.offset
    have hm' := hm'.offset
    simp only [Cursor.ofBytes, hend, List.length_nil] at hfront hback hm hm'
    simp only [State.prolong, Cursor.prolong]
    omega
  rw [decodeDocument_of_body_error hheader' hevents (body_of_trailing hleading' hrest), hoffset]

/-- The streams are a code of which no word begins another one, with exact errors: a proper front
of a stream misses bytes, and what follows a stream is reported with its place. -/
theorem decodeDocument_cut_or_prolonged {stream : Bytes} {document : Document}
    (h : decodeDocument options stream = .ok document) :
    (∀ front, front <+: stream → front ≠ stream →
      ∃ error, decodeDocument options front = .error error ∧ error.EndsEarly) ∧
    ∀ more, more ≠ [] → ∃ fault, decodeDocument options (stream ++ more) = .error (.decoding fault) ∧
      fault.message = "unexpected data after the root element at offset " ++
        Numeral.decimal stream.length := by
  refine ⟨?_, fun more hmore => ⟨_, decodeDocument_of_prolonged hmore h, rfl⟩⟩
  rintro front ⟨more, rfl⟩ hne
  exact decodeDocument_of_cut (fun hmore => hne (by simp [hmore])) h

/-- A stream with a string table, an attribute, a change of page, a number in two bytes and opaque
data. -/
def tabledStream : Bytes := [
  0x03, 0x01, 0x6A, 0x05, 0x6E, 0x6F, 0x74, 0x65, 0x00, 0xC5, 0x04, 0x00, 0x03, 0x61, 0x00, 0x01,
  0x00, 0x16, 0x49, 0xC3, 0x80, 0x03, 0x00, 0x01, 0x02, 0x01, 0x01]

/-- What that stream denotes. -/
def tabled : Document :=
  ⟨⟨"Sync", some "AirSync:", [⟨"note", "a"⟩], [
    .element ⟨"ConversationId", some "Email2:", [], [.text "AAEC"]⟩]⟩⟩

theorem decodeDocument_cut_or_prolonged_tabledStream :
    decodeDocument {} tabledStream = .ok tabled ∧
      (∃ error, decodeDocument {} (tabledStream.take 21) = .error error ∧ error.EndsEarly) ∧
        ∃ fault, decodeDocument {} (tabledStream ++ [0x01]) = .error (.decoding fault) ∧
          fault.message = "unexpected data after the root element at offset " ++
            Numeral.decimal 27 := by
  have hread : decodeDocument {} tabledStream = .ok tabled := by
    decide +kernel
  obtain ⟨hcut, hprolonged⟩ := decodeDocument_cut_or_prolonged hread
  exact ⟨hread, hcut _ (List.take_prefix 21 _) (by decide), hprolonged _ (by decide)⟩

end Streams

end Decoding

end BinaryXml
