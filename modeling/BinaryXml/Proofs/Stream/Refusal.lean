import BinaryXml.Proofs.Stream.Canonical
import BinaryXml.Proofs.Stream.Depth

/-! # When writing fails

* `Document.affordable_of_limit`: what a document asks for does not depend on the depth that is
  allowed.
* `Document.not_spellable_of_encode`: what has no zero character never fails to be encoded, however
  deep it is.
* `Document.encode_exact`: which documents are written, and why the others are not.
-/

namespace BinaryXml

open Encoding Grammar

set_option autoImplicit false

/-! ## Demands do not depend on the depth -/

namespace Encoding

section Limits
variable {source : Context} (limit : Nat)

theorem listDemands_of_limit (page : UInt8) (list : List Attribute) :
    listDemands { source with maxDepth := limit } page list = listDemands source page list := by
  induction list generalizing page with
  | nil => rfl
  | cons first rest ih =>
    rw [listDemands, listDemands, ih]
    rfl

mutual

theorem elementDemands_of_limit : ∀ (root : Element) (pages : Pages),
    elementDemands { source with maxDepth := limit } pages root = elementDemands source pages root
  | ⟨name, uri, list, children⟩, pages => by
    rw [elementDemands_eq, elementDemands_eq, listDemands_of_limit]
    unfold innerDemands
    simp only [nodesDemands_of_limit children]
    rfl

theorem nodesDemands_of_limit : ∀ (nodes : List Node) (pages : Pages),
    nodesDemands { source with maxDepth := limit } pages nodes = nodesDemands source pages nodes
  | [], _ => rfl
  | .element child :: rest, pages => by
    rw [nodesDemands, nodesDemands, elementDemands_of_limit child, nodesDemands_of_limit rest]
  | .text content :: rest, pages => by
    rw [nodesDemands, nodesDemands, nodesDemands_of_limit rest]
    rfl
  | .comment _ :: rest, pages => by
    rw [nodesDemands, nodesDemands, nodesDemands_of_limit rest]

end

end Limits

end Encoding

namespace Document

variable {options : EncodeOptions} {document : Document} {error : Error}

theorem affordable_of_limit (limit : Nat) (hafford : document.Affordable options) :
    document.Affordable { options with maxDepth := limit } := by
  have hdemands : documentDemands { options with maxDepth := limit } document =
      documentDemands options document :=
    congrArg Prod.fst (@elementDemands_of_limit (Context.of options ⟨initialEntries options⟩
      (document.root.stripped options.whitespace)) limit _ ⟨0, 0⟩)
  unfold Affordable
  rw [hdemands]
  exact hafford

/-! ## Zero characters -/

/-- A language without zero characters has no token for one, so that a document is written just if
it has none either. -/
theorem exists_encodeDocument_iff_spellable (clean : CleanLanguage options.language)
    (hfpi : '\x00' ∉ options.language.fpi.toList) (hafford : document.Affordable options) :
    (∃ stream, encodeDocument options document = .ok stream) ↔
      options.version ≤ newestVersion ∧ document.root.levels ≤ options.maxDepth ∧
        Spellable document.root := by
  rw [exists_encodeDocument_iff hafford]
  constructor
  · intro h
    exact ⟨h.version, h.levels, spellable_of_writable clean _ _ h.writable⟩
  · rintro ⟨hversion, hlevels, hspell⟩
    exact ⟨hversion, fun _ _ => hfpi, hlevels, writable_of_spellable _ _ hspell⟩

/-- The depth that is allowed is changed to one that the document keeps to. Then it would have been
written, and the depth can only have brought about an error of its own. -/
theorem not_spellable_of_encode (clean : CleanLanguage options.language)
    (hfpi : '\x00' ∉ options.language.fpi.toList) (hafford : document.Affordable options)
    (hversion : options.version ≤ newestVersion) (hkind : error.kind = .encoding)
    (h : encodeDocument options document = .error error) : ¬ Spellable document.root := by
  intro hspell
  obtain ⟨stream, hstream⟩ := (@exists_encodeDocument_iff_spellable
    { options with maxDepth := document.root.levels } document clean hfpi
    (affordable_of_limit document.root.levels hafford)).mpr ⟨hversion, Nat.le_refl _, hspell⟩
  have hsame := @encodeDocument_of_limit _ document stream options.maxDepth hstream
  rw [show encodeDocument _ document = _ from h] at hsame
  split at hsame
  · cases hsame
  · cases hsame
    cases hkind

/-- A document whose table and data stay below 4 GiB is written just if its version is known, it is
nested no deeper than is allowed and it has no zero character outside of comments. The error tells
which of these does not hold, and the version comes first. -/
theorem encode_exact (clean : CleanLanguage options.language)
    (hfpi : '\x00' ∉ options.language.fpi.toList) (hafford : document.Affordable options) :
    ((∃ stream, encodeDocument options document = .ok stream) ↔
      options.version ≤ newestVersion ∧ document.root.levels ≤ options.maxDepth ∧
        Spellable document.root) ∧
    ∀ error, encodeDocument options document = .error error →
      if newestVersion < options.version then error = .unsupportedVersion options.version
      else error = .tooDeep options.maxDepth ∧ options.maxDepth < document.root.levels ∨
        error.kind = .encoding ∧ ¬ Spellable document.root := by
  refine ⟨exists_encodeDocument_iff_spellable clean hfpi hafford, fun error h => ?_⟩
  split
  · rename_i hnewer
    have hrun : encodeDocument options document = .error (.unsupportedVersion options.version) := by
      unfold encodeDocument run
      rw [if_pos hnewer]
    rw [hrun] at h
    cases h
    rfl
  · rename_i hknown
    rcases error_of_encodeDocument h with ⟨hnewer, -⟩ | hkind | hdeep
    · exact absurd hnewer hknown
    · have hversion : options.version ≤ newestVersion := UInt8.not_lt.mp hknown
      exact .inr ⟨hkind, not_spellable_of_encode clean hfpi hafford hversion hkind h⟩
    · exact .inl hdeep

/-- A document that cannot be written because of its text. -/
def zeroText : Document := ⟨⟨"Sync", some "AirSync:", [], [.text "a\x00"]⟩⟩

/-- A document that can, though it has a zero character, too. -/
def zeroComment : Document := ⟨⟨"Sync", some "AirSync:", [], [.comment "a\x00"]⟩⟩

theorem encode_exact_zeroText :
    (∃ stream, encodeDocument {} zeroComment = .ok stream) ∧
      encodeDocument {} zeroText = .error (.encoding (.nulInString 1)) ∧
      ¬ Spellable zeroText.root := by
  have hfpi : '\x00' ∉ ActiveSync.language.fpi.toList := by decide
  have hrun : encodeDocument {} zeroText = .error (.encoding (.nulInString 1)) := by
    decide +kernel
  have hcomment : zeroComment.Affordable {} := by decide +kernel
  have htext : zeroText.Affordable {} := by decide +kernel
  have hspell : Spellable zeroComment.root := by
    simp [zeroComment, Spellable, SpellableAll]
  refine ⟨?_, hrun, ?_⟩
  · exact (encode_exact ActiveSync.cleanLanguage hfpi hcomment).1.mpr
      ⟨by decide, by decide +kernel, hspell⟩
  · rcases (encode_exact ActiveSync.cleanLanguage hfpi htext).2 _ hrun with ⟨hdeep, -⟩ | ⟨-, hzero⟩
    · cases hdeep
    · exact hzero

end Document

end BinaryXml
