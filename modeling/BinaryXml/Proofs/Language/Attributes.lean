import BinaryXml.Proofs.Language.Lookup
import BinaryXml.Proofs.Text.Utf8

/-! # Which entries are chosen for an attribute

* `AttributeStart.Starts`: an entry stands for an attribute's name and for a front of its value.
* `Language.BestStart`: such an entry with the longest front, on the current page if one of the
  longest is there. `attributeStart?_eq_none_iff` and `bestStart_of_attributeStart?`: it is the one
  that is chosen.
* `Language.BestValue`: the same for an entry that stands for a whole value.
-/

namespace BinaryXml

set_option autoImplicit false

/-! ## Starts -/

/-- An entry has an attribute's name, and the attribute's value begins like the one of the entry. -/
def AttributeStart.Starts (entry : AttributeStart) (name value : String) : Prop :=
  entry.name = name ∧ ∃ rest, value = entry.valueStart ++ rest

/-- The number of bytes that an entry stands for at the front of a value. -/
def AttributeStart.size (entry : AttributeStart) : Nat :=
  (Utf8.encode entry.valueStart).length

namespace Language

/-- The entry that is chosen for an attribute. -/
structure BestStart (language : Language) (name value : String) (current : UInt8)
    (entry : AttributeStart) : Prop where
  mem : entry ∈ language.attributeStarts
  starts : entry.Starts name value
  longest : ∀ other ∈ language.attributeStarts, other.Starts name value → other.size ≤ entry.size
  /-- If one of the longest is on the current page, so is this one. -/
  onCurrent : ∀ other ∈ language.attributeStarts, other.Starts name value →
    other.size = entry.size → other.page = current → entry.page = current

/-- The entry that is chosen for a whole value. -/
structure BestValue (language : Language) (value : String) (current : UInt8)
    (entry : AttributeValue) : Prop where
  mem : entry ∈ language.attributeValues
  value_eq : entry.value = value
  /-- If an entry for the value is on the current page, so is this one. -/
  onCurrent : ∀ other ∈ language.attributeValues, other.value = value → other.page = current →
    entry.page = current

end Language

namespace AttributeStart

variable {entry other : AttributeStart} {name value : String} {current : UInt8}

theorem covers_iff_starts : entry.covers name value = true ↔ entry.Starts name value := by
  constructor
  · intro h
    obtain ⟨hname, hvalue⟩ := Language.append_remainder h
    exact ⟨hname, _, hvalue.symm⟩
  · rintro ⟨rfl, rest, rfl⟩
    rw [covers, Bool.and_eq_true, beq_iff_eq, List.isPrefixOf_iff_prefix, String.toList_append]
    exact ⟨rfl, List.prefix_append _ _⟩

/-- Of two fronts of one value the one with fewer characters is a front of the other. -/
theorem exists_append_of_le (h : entry.Starts name value) (h' : other.Starts name value)
    (hle : other.valueStart.toList.length ≤ entry.valueStart.toList.length) :
    ∃ rest, entry.valueStart = other.valueStart ++ rest := by
  obtain ⟨-, rest, rfl⟩ := h
  obtain ⟨-, rest', hvalue⟩ := h'
  have hchars := congrArg String.toList hvalue
  rw [String.toList_append, String.toList_append] at hchars
  obtain ⟨more, hmore⟩ := List.prefix_of_prefix_length_le
    (hchars ▸ List.prefix_append other.valueStart.toList rest'.toList)
    (List.prefix_append entry.valueStart.toList rest.toList) hle
  refine ⟨String.ofList more, String.toList_injective ?_⟩
  rw [String.toList_append, String.toList_ofList, hmore]

theorem size_le_of_le (h : entry.Starts name value) (h' : other.Starts name value)
    (hle : other.valueStart.toList.length ≤ entry.valueStart.toList.length) :
    other.size ≤ entry.size := by
  obtain ⟨rest, hrest⟩ := exists_append_of_le h h' hle
  rw [size, size, hrest, Utf8.encode_append, List.length_append]
  exact Nat.le_add_right _ _

theorem length_eq_of_size_eq (h : entry.Starts name value) (h' : other.Starts name value)
    (hle : other.valueStart.toList.length ≤ entry.valueStart.toList.length)
    (hsize : other.size = entry.size) :
    other.valueStart.toList.length = entry.valueStart.toList.length := by
  obtain ⟨rest, hrest⟩ := exists_append_of_le h h' hle
  rw [size, size, hrest, Utf8.encode_append, List.length_append] at hsize
  have hnil : Utf8.encode rest = Utf8.encode "" := List.length_eq_zero_iff.mp (by omega)
  rw [hrest, Utf8.encode_injective hnil, String.append_empty]

theorem length_le_of_rank_le (h : other.rank current ≤ entry.rank current) :
    other.valueStart.toList.length ≤ entry.valueStart.toList.length := by
  unfold rank at h
  split at h <;> split at h <;> omega

/-- Of two entries with fronts of one length, one that is as good as an entry on the current page
is there as well. -/
theorem page_eq_of_rank_le (h : other.rank current ≤ entry.rank current)
    (hlength : other.valueStart.toList.length = entry.valueStart.toList.length)
    (hpage : other.page = current) : entry.page = current := by
  unfold rank at h
  rw [if_pos (beq_iff_eq.mpr hpage), hlength] at h
  split at h
  · rename_i hcurrent
    exact beq_iff_eq.mp hcurrent
  · omega

theorem rank_le_of_better {start : Option AttributeStart} {best : AttributeStart}
    (h : better current start entry = some best) :
    entry.rank current ≤ best.rank current ∧
      ∀ other, start = some other → other.rank current ≤ best.rank current := by
  cases start with
  | none =>
    cases h
    refine ⟨Nat.le_refl _, ?_⟩
    rintro other ⟨⟩
  | some first =>
    rw [better] at h
    split at h
    · rename_i hle
      cases h
      refine ⟨Nat.le_refl _, ?_⟩
      rintro other ⟨⟩
      exact hle
    · rename_i hlt
      cases h
      refine ⟨Nat.le_of_lt (Nat.lt_of_not_le hlt), ?_⟩
      rintro other ⟨⟩
      exact Nat.le_refl _

theorem better_ne_none (start : Option AttributeStart) : better current start entry ≠ none := by
  cases start with
  | none => exact Option.some_ne_none entry
  | some first =>
    rw [better]
    split <;> exact Option.some_ne_none _

theorem foldl_better_eq_none_iff {list : List AttributeStart} {start : Option AttributeStart} :
    list.foldl (better current) start = none ↔ start = none ∧ list = [] := by
  induction list generalizing start with
  | nil => exact (and_iff_left rfl).symm
  | cons first rest ih =>
    rw [List.foldl_cons, ih]
    constructor
    · rintro ⟨hnone, -⟩
      exact absurd hnone (better_ne_none start)
    · rintro ⟨-, ⟨⟩⟩

/-- No entry of a list is better than the best one. -/
theorem rank_le_of_foldl_better {list : List AttributeStart} {start : Option AttributeStart}
    {best : AttributeStart} (h : list.foldl (better current) start = some best) :
    (∀ other, start = some other → other.rank current ≤ best.rank current) ∧
      ∀ other ∈ list, other.rank current ≤ best.rank current := by
  -- What was best before is compared too, as the fold goes on from it.
  induction list generalizing start with
  | nil =>
    refine ⟨?_, List.forall_mem_nil _⟩
    rintro other rfl
    cases h
    exact Nat.le_refl _
  | cons first rest ih =>
    rw [List.foldl_cons] at h
    obtain ⟨hstart, hrest⟩ := ih h
    obtain ⟨middle, hmiddle⟩ := Option.ne_none_iff_exists'.mp (better_ne_none start)
    obtain ⟨hfirst, hbefore⟩ := rank_le_of_better hmiddle
    have hbest := hstart middle hmiddle
    refine ⟨fun other hother => Nat.le_trans (hbefore other hother) hbest, ?_⟩
    exact List.forall_mem_cons.mpr ⟨Nat.le_trans hfirst hbest, hrest⟩

end AttributeStart

namespace Language

section Choices
variable {language : Language} {name value : String} {current : UInt8}

theorem attributeStart?_eq_none_iff : language.attributeStart? name value current = none ↔
    ∀ entry ∈ language.attributeStarts, ¬ entry.Starts name value := by
  rw [attributeStart?, AttributeStart.foldl_better_eq_none_iff, and_iff_right rfl,
    List.filter_eq_nil_iff]
  simp only [AttributeStart.covers_iff_starts]

theorem bestStart_of_attributeStart? {entry : AttributeStart}
    (h : language.attributeStart? name value current = some entry) :
    language.BestStart name value current entry := by
  obtain ⟨hmem, hcovers⟩ := attributeStart?_eq_some h
  have hstarts := AttributeStart.covers_iff_starts.mp hcovers
  have hrank (other : AttributeStart) (hother : other ∈ language.attributeStarts)
      (hothers : other.Starts name value) : other.rank current ≤ entry.rank current :=
    (AttributeStart.rank_le_of_foldl_better h).2 other
      (List.mem_filter.mpr ⟨hother, AttributeStart.covers_iff_starts.mpr hothers⟩)
  refine ⟨hmem, hstarts, fun other hother hothers => ?_, fun other hother hothers hsize hpage => ?_⟩
  · exact AttributeStart.size_le_of_le hstarts hothers
      (AttributeStart.length_le_of_rank_le (hrank other hother hothers))
  · have hle := hrank other hother hothers
    have hsame := AttributeStart.length_eq_of_size_eq hstarts hothers
      (AttributeStart.length_le_of_rank_le hle) hsize
    exact AttributeStart.page_eq_of_rank_le hle hsame hpage

theorem attributeValue?_eq_none_iff : language.attributeValue? value current = none ↔
    ∀ entry ∈ language.attributeValues, entry.value ≠ value := by
  have hfilter : language.attributeValues.filter (·.value == value) = [] ↔
      ∀ entry ∈ language.attributeValues, entry.value ≠ value := by
    rw [List.filter_eq_nil_iff]
    simp only [beq_iff_eq, ne_eq]
  rw [attributeValue?, Option.or_eq_none_iff, List.head?_eq_none_iff, ← hfilter]
  refine ⟨And.right, fun hnone => ⟨?_, hnone⟩⟩
  rw [hnone]
  rfl

theorem bestValue_of_attributeValue? {entry : AttributeValue}
    (h : language.attributeValue? value current = some entry) :
    language.BestValue value current entry := by
  obtain ⟨hmem, hvalue⟩ := attributeValue?_eq_some h
  refine ⟨hmem, hvalue, fun other hother hothers hpage => ?_⟩
  rcases Option.or_eq_some_iff.mp h with hfound | ⟨hnone, -⟩
  · simpa using List.find?_some hfound
  · have hlisted : other ∈ language.attributeValues.filter (·.value == value) :=
      List.mem_filter.mpr ⟨hother, by simpa using hothers⟩
    exact absurd (beq_iff_eq.mpr hpage) (List.find?_eq_none.mp hnone other hlisted)

end Choices

end Language

end BinaryXml
