import BinaryXml.Proofs.Stream.StringTables

/-! # Tables that are asked for offsets

* `TableBuilder.History`: the answers of a table to requests, and the table behind them. A request
  that is refused does not end it.
* `History.Kept` is what every request keeps, and `History.kept_of` what all requests keep.
* `History.Interned` says what the answers, the bytes of the table and its strings as they are read
  have to do with each other; `History.interned_of` says that it is so behind all requests.
-/

namespace BinaryXml.TableBuilder

set_option autoImplicit false

/-! ## Requests -/

/-- The requests to a table with their answers, and the table behind them. -/
structure History where
  answers : List (String × Except Error UInt32) := []
  table : TableBuilder := {}

namespace History

/-- Asks for the offset of one more string. -/
def ask (history : History) (entry : String) : History :=
  match intern entry history.table with
  | .ok offset table => ⟨history.answers ++ [(entry, .ok offset)], table⟩
  | .error error table => ⟨history.answers ++ [(entry, .error error)], table⟩

/-- Asks a new table for the offsets of strings one after the other. -/
def of (requests : List String) : History :=
  requests.foldl ask {}

/-- The strings that were given an offset, in the order of the requests. -/
def given (history : History) : List String :=
  history.answers.filterMap fun
    | (entry, .ok _) => some entry
    | (_, .error _) => none

/-- What the answers have to do with the table and with its bytes. -/
structure Interned (requests : List String) (history : History) : Prop where
  /-- Every request is answered. -/
  answered : history.answers.map Prod.fst = requests
  /-- The bytes are those of the strings that were given an offset, in the order in which they were
  given the first one, each with a zero byte. -/
  ordered : history.table.bytes = history.given.eraseDups.flatMap fun entry =>
    Utf8.encode entry ++ [0]
  /-- A string is refused exactly if it has a zero character. -/
  refused_iff : ∀ entry answer, (entry, answer) ∈ history.answers →
    ((∃ error, answer = .error error) ↔ '\x00' ∈ entry.toList)
  /-- A string that is refused leaves the table as it was. -/
  unchanged : ∀ before entry after, requests = before ++ entry :: after → '\x00' ∈ entry.toList →
    (of (before ++ [entry])).table = (of before).table
  /-- A string has one offset, and different strings have different ones. -/
  offset_eq_iff : ∀ entry offset entry' offset', (entry, .ok offset) ∈ history.answers →
    (entry', .ok offset') ∈ history.answers → (offset = offset' ↔ entry = entry')
  contains_iff : ∀ entry, history.table.contains entry = true ↔
    ∃ offset, (entry, .ok offset) ∈ history.answers
  /-- At the offset of a string the final bytes are read as that string. -/
  get_of_given : ∀ entry offset, (entry, .ok offset) ∈ history.answers →
    StringTable.get ⟨history.table.bytes⟩ offset = .ok (Utf8.encode entry)
  /-- Only offsets behind the bytes are refused when they are read. -/
  get_error_iff : ∀ offset, StringTable.get ⟨history.table.bytes⟩ offset =
    .error (.tableOffset offset) ↔ history.table.bytes.length ≤ offset.toNat

/-- What every request keeps. -/
structure Kept (history : History) : Prop where
  entries : history.table.entries = history.given.eraseDups
  clean : Clean history.table.entries
  placed : ∀ entry offset, (entry, .ok offset) ∈ history.answers →
    Refers history.table.entries offset entry
  refused : ∀ entry error, (entry, .error error) ∈ history.answers → '\x00' ∈ entry.toList

end History

/-! ## One request -/

section Requests
variable {history : History} {entry : String}

theorem intern_eq_error {table table' : TableBuilder} {error : Error}
    (h : intern entry table = .error error table') :
    table' = table ∧ ('\x00' ∈ entry.toList ∨ limit ≤ table.bytes.length) := by
  unfold intern at h
  split at h
  · cases h
  · split at h
    · rename_i hzero
      cases h
      exact ⟨rfl, .inl (by simpa using hzero)⟩
    · split at h
      · cases h
      · rename_i hfull
        cases h
        exact ⟨rfl, .inr (Nat.le_of_not_lt hfull)⟩

namespace History

theorem given_ask_ok {offset : UInt32} {table : TableBuilder}
    (h : intern entry history.table = .ok offset table) :
    history.ask entry = ⟨history.answers ++ [(entry, .ok offset)], table⟩ ∧
      (history.ask entry).given = history.given ++ [entry] := by
  unfold ask
  rw [h]
  exact ⟨rfl, List.filterMap_append⟩

theorem given_ask_error {error : Error} {table : TableBuilder}
    (h : intern entry history.table = .error error table) :
    history.ask entry = ⟨history.answers ++ [(entry, .error error)], table⟩ ∧
      (history.ask entry).given = history.given := by
  unfold ask
  rw [h]
  refine ⟨rfl, ?_⟩
  unfold given
  rw [List.filterMap_append]
  exact List.append_nil _

theorem map_answers_ask (history : History) (entry : String) :
    (history.ask entry).answers.map Prod.fst = history.answers.map Prod.fst ++ [entry] := by
  unfold ask
  split <;> simp

theorem length_le_ask (history : History) (entry : String) :
    history.table.bytes.length ≤ (history.ask entry).table.bytes.length := by
  cases h : intern entry history.table with
  | ok offset table =>
    obtain ⟨-, more, hmore, -⟩ := intern_eq_ok h
    rw [(given_ask_ok h).1]
    change _ ≤ (bytes ⟨table.entries⟩).length
    rw [hmore, bytes_append, List.length_append]
    exact Nat.le_add_right _ _
  | error error table =>
    rw [(given_ask_error h).1, (intern_eq_error h).1]

theorem mem_given_iff : entry ∈ history.given ↔ ∃ offset, (entry, .ok offset) ∈ history.answers := by
  unfold given
  rw [List.mem_filterMap]
  constructor
  · rintro ⟨⟨_, offset | offset⟩, hmem, hentry⟩
    · cases hentry
    · cases hentry
      exact ⟨offset, hmem⟩
  · rintro ⟨offset, hmem⟩
    exact ⟨_, hmem, rfl⟩

theorem Kept.ask_ok {offset : UInt32} {table : TableBuilder} (kept : history.Kept)
    (h : intern entry history.table = .ok offset table) : (history.ask entry).Kept := by
  obtain ⟨hask, hgiven⟩ := given_ask_ok h
  obtain ⟨hrefers, more, hmore, -⟩ := intern_eq_ok h
  obtain ⟨-, hclean, hmeet⟩ := Encoding.intern_eq_ok_meet kept.clean h
  refine ⟨?_, ?_, fun other place hmem => ?_, fun other error hmem => ?_⟩
  · rw [hgiven, eraseDups_concat, hask]
    change table.entries = _
    rw [hmeet, Encoding.meet_entry, kept.entries]
    simp only [List.mem_eraseDups]
  · rw [hask]
    exact hclean
  · rw [hask] at hmem ⊢
    rcases List.mem_append.mp hmem with hold | hnew
    · change Refers table.entries place other
      rw [hmore]
      exact (kept.placed other place hold).append more
    · cases List.mem_singleton.mp hnew
      exact hrefers
  · rw [hask] at hmem
    rcases List.mem_append.mp hmem with hold | hnew
    · exact kept.refused other error hold
    · cases List.mem_singleton.mp hnew

theorem Kept.ask_error {error : Error} {table : TableBuilder} (kept : history.Kept)
    (h : intern entry history.table = .error error table) (hzero : '\x00' ∈ entry.toList) :
    (history.ask entry).Kept := by
  obtain ⟨hask, hgiven⟩ := given_ask_error h
  obtain ⟨rfl, -⟩ := intern_eq_error h
  refine ⟨?_, ?_, fun other place hmem => ?_, fun other error hmem => ?_⟩
  · rw [hgiven, hask]
    exact kept.entries
  · rw [hask]
    exact kept.clean
  · rw [hask] at hmem ⊢
    rcases List.mem_append.mp hmem with hold | hnew
    · exact kept.placed other place hold
    · cases List.mem_singleton.mp hnew
  · rw [hask] at hmem
    rcases List.mem_append.mp hmem with hold | hnew
    · exact kept.refused other error hold
    · cases List.mem_singleton.mp hnew
      exact hzero

/-- Below the limit, a request is refused for a zero character only. -/
theorem Kept.ask (kept : history.Kept) (hsize : (history.ask entry).table.bytes.length < limit) :
    (history.ask entry).Kept := by
  cases h : intern entry history.table with
  | ok offset table => exact kept.ask_ok h
  | error error table =>
    have hroom : history.table.bytes.length < limit :=
      Nat.lt_of_le_of_lt (length_le_ask history entry) hsize
    obtain ⟨-, hcause⟩ := intern_eq_error h
    exact kept.ask_error h (hcause.resolve_right (Nat.not_le_of_lt hroom))

theorem Kept.clean_of_given (kept : history.Kept) {offset : UInt32}
    (h : (entry, .ok offset) ∈ history.answers) : '\x00' ∉ entry.toList := by
  refine kept.clean entry ?_
  rw [kept.entries, List.mem_eraseDups, mem_given_iff]
  exact ⟨offset, h⟩

end History

end Requests

/-! ## Reading what was asked for -/

section Reading
variable {entries : List String} {entry : String} {offset offset' : UInt32}

theorem get_of_refers (h : Refers entries offset entry) (hclean : Clean entries)
    (hsize : (bytes ⟨entries⟩).length < limit) :
    StringTable.get ⟨bytes ⟨entries⟩⟩ offset = .ok (Utf8.encode entry) :=
  Grammar.get_eq_ok_iff.mpr (holds_of_refers h hclean hsize)

/-- The bytes of a table end with a zero byte. -/
theorem zero_mem_drop_bytes_iff (place : Nat) :
    0 ∈ (bytes ⟨entries⟩).drop place ↔ place < (bytes ⟨entries⟩).length := by
  constructor
  · intro hmem
    refine Nat.lt_of_not_le fun hle => ?_
    rw [List.drop_eq_nil_iff.mpr hle] at hmem
    cases hmem
  · induction entries using List.reverseRecOn with
    | nil => exact fun hlt => absurd hlt (Nat.not_lt_zero _)
    | append_singleton front last _ =>
      have hbytes : bytes ⟨front ++ [last]⟩ = bytes ⟨front⟩ ++ Utf8.encode last ++ [0] := by
        rw [bytes_append, List.append_assoc]
        exact congrArg _ (List.append_nil _)
      rw [hbytes, List.length_append, List.length_singleton]
      intro hlt
      rw [List.drop_append_of_le_length (Nat.le_of_lt_succ hlt)]
      exact List.mem_append_right _ List.mem_cons_self

theorem get_eq_error_iff : StringTable.get ⟨bytes ⟨entries⟩⟩ offset = .error (.tableOffset offset) ↔
    (bytes ⟨entries⟩).length ≤ offset.toNat := by
  unfold StringTable.get
  dsimp only
  rw [← Nat.not_lt, ← zero_mem_drop_bytes_iff, ← Frame.length_takeWhile_lt_iff]
  split
  · rename_i hzero
    exact iff_of_false (fun h => by cases h) (not_not_intro hzero)
  · rename_i hzero
    exact iff_of_true rfl hzero

theorem Refers.offset_eq (hnodup : entries.Nodup) (h : Refers entries offset entry)
    (h' : Refers entries offset' entry) : offset = offset' := by
  obtain ⟨before, after, rfl, rfl⟩ := h
  obtain ⟨before', after', hentries, rfl⟩ := h'
  obtain ⟨-, hbehind, hapart⟩ := List.nodup_append.mp hnodup
  have hbefore : entry ∉ before := fun hmem => hapart entry hmem entry List.mem_cons_self rfl
  have hafter : entry ∉ after := (List.nodup_cons.mp hbehind).1
  rw [((List.append_cons_inj_of_notMem hbefore hafter).mp hentries).1]

/-- Strings that are read at one offset are the same. -/
theorem Refers.entry_eq {entry' : String} (hclean : Clean entries)
    (hsize : (bytes ⟨entries⟩).length < limit) (h : Refers entries offset entry)
    (h' : Refers entries offset entry') : entry = entry' := by
  have hget := get_of_refers h hclean hsize
  rw [get_of_refers h' hclean hsize] at hget
  exact (Utf8.encode_injective (Except.ok.inj hget)).symm

end Reading

/-! ## All requests -/

namespace History

variable {requests : List String}

theorem of_concat (requests : List String) (entry : String) :
    of (requests ++ [entry]) = (of requests).ask entry := by
  unfold of
  rw [List.foldl_append]
  rfl

theorem kept_of (h : (of requests).table.bytes.length < limit) : (of requests).Kept := by
  induction requests using List.reverseRecOn with
  | nil =>
    refine ⟨rfl, ?_, ?_, ?_⟩
    · intro entry hmem
      cases hmem
    · intro entry offset hmem
      cases hmem
    · intro entry error hmem
      cases hmem
  | append_singleton requests entry ih =>
    rw [of_concat] at h ⊢
    exact (ih (Nat.lt_of_le_of_lt (length_le_ask _ _) h)).ask h

theorem answered_of (requests : List String) : (of requests).answers.map Prod.fst = requests := by
  induction requests using List.reverseRecOn with
  | nil => rfl
  | append_singleton requests entry ih => rw [of_concat, map_answers_ask, ih]

theorem length_le_of_append (requests more : List String) :
    (of requests).table.bytes.length ≤ (of (requests ++ more)).table.bytes.length := by
  induction more using List.reverseRecOn with
  | nil => rw [List.append_nil]
  | append_singleton more entry ih =>
    rw [← List.append_assoc, of_concat]
    exact Nat.le_trans ih (length_le_ask _ _)

/-- A string with a zero character is never in the table, so that it is refused. -/
theorem table_of_zero (h : (of requests).table.bytes.length < limit) {entry : String}
    (hzero : '\x00' ∈ entry.toList) : (of (requests ++ [entry])).table = (of requests).table := by
  rw [of_concat]
  cases hintern : intern entry (of requests).table with
  | ok offset table =>
    exact absurd hzero (Encoding.intern_eq_ok_meet (kept_of h).clean hintern).1
  | error error table => rw [(given_ask_error hintern).1, (intern_eq_error hintern).1]

/-- Behind any requests, as long as offsets reach the end of the table: its bytes are the strings
that were given an offset, each is read at its offset, and a string is refused exactly if it has a
zero character. -/
theorem interned_of (h : (of requests).table.bytes.length < limit) :
    Interned requests (of requests) := by
  have kept := kept_of h
  have hnodup : (of requests).table.entries.Nodup := by
    rw [kept.entries]
    exact nodup_eraseDups _
  constructor
  · exact answered_of requests
  · rw [bytes, kept.entries]
    rfl
  · intro entry answer hmem
    constructor
    · rintro ⟨error, rfl⟩
      exact kept.refused entry error hmem
    · intro hzero
      cases answer with
      | ok offset => exact absurd hzero (kept.clean_of_given hmem)
      | error error => exact ⟨error, rfl⟩
  · rintro before entry after rfl hzero
    exact table_of_zero (Nat.lt_of_le_of_lt (length_le_of_append before _) h) hzero
  · intro entry offset entry' offset' hmem hmem'
    have hrefers := kept.placed entry offset hmem
    have hrefers' := kept.placed entry' offset' hmem'
    constructor
    · rintro rfl
      exact hrefers.entry_eq kept.clean h hrefers'
    · rintro rfl
      exact hrefers.offset_eq hnodup hrefers'
  · intro entry
    rw [contains, List.contains_iff_mem, kept.entries, List.mem_eraseDups, mem_given_iff]
  · intro entry offset hmem
    exact get_of_refers (kept.placed entry offset hmem) kept.clean h
  · intro offset
    exact get_eq_error_iff

/-- Requests with a repetition, the empty string, a string that ends like another one and one that
is refused. The bytes are `61 62 00 00 62 00`. -/
theorem interned_of_mixedRequests :
    let requests := ["ab", "", "x\x00y", "b", "ab"]
    (of requests).table.bytes.length < limit ∧
      (of requests).answers.map (·.2.toOption) = [some 0, some 3, none, some 4, some 0] ∧
      Interned requests (of requests) := by
  intro requests
  have hsize : (of requests).table.bytes.length < limit := by decide +kernel
  exact ⟨hsize, by decide +kernel, interned_of hsize⟩

end History

end BinaryXml.TableBuilder
