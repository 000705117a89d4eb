import BinaryXml.Proofs.Xml.Exactness
import BinaryXml.Proofs.Xml.Prolog

/-! # Documents that are written and read

* `writeDocument_eq_ok`: what is written of a document in compact output in UTF-8.
* `exists_parseDocument_iff`: a document is read as it was written if and only if its names are
  readable.
-/

namespace BinaryXml

open Parsing (Outside)
open Writing

set_option autoImplicit false

/-- What is written of a document for some language in compact output in UTF-8. -/
def Writing.documentBytes (language : Language) (root : Element) : Bytes :=
  Utf8.encode (xmlDeclaration .utf8) ++
    (Utf8.encode (doctype language) ++ elementBytes .utf8 none root)

theorem writeDocument_eq_ok {options : DecodeOptions} {document : Document} {bytes : Bytes}
    (hform : options.form = .compact) (hcharset : options.charset = .utf8)
    (h : writeDocument options document = .ok bytes) :
    bytes = documentBytes options.language document.root := by
  unfold writeDocument Writing.text at h
  simp only [Layout.of_compact hform, hcharset] at h
  obtain ⟨text, htext, h⟩ := Parsing.bind_eq_ok_iff.mp h
  obtain ⟨root, hroot, htext⟩ := Parsing.bind_eq_ok_iff.mp htext
  rw [← Except.ok.inj h, ← Except.ok.inj htext]
  simp only [Utf8.encode_append, encode_lineBreak, List.append_nil, List.append_assoc]
  rw [encode_of_element hroot, documentBytes]

/-- Nothing stands between the declarations and the outermost element. -/
theorem documentBytes_eq (language : Language) (root : Element) :
    documentBytes language root =
      prologBytes .utf8 none language (elementBytes .utf8 none root) := by
  rw [documentBytes, prologBytes, encode_lineBreak, List.nil_append, List.nil_append]

/-! ## The outermost element -/

/-- Where no bracket is to spare, the outermost element comes first. -/
theorem isElement_of_outside {context : Parsing.Context} {text : Bytes} {root : Element}
    (h : Outside context none (0x3C :: text) root)
    (htight : openings (0x3C :: text) ≤ root.brackets) :
    ∃ rest, Parsing.IsElement context Scope.initial 0 (0x3C :: text) root rest := by
  cases h with
  | blank starts _ _ others =>
    have hbrackets := brackets_le_of_outside others
    have hlt := openings_lt_of_starts starts
    omega
  | passed starts _ others =>
    have hbrackets := brackets_le_of_outside others
    have hlt := openings_lt_of_starts starts
    omega
  | doctype starts _ others =>
    have hbrackets := brackets_le_of_outside others
    have hlt := openings_lt_of_starts starts
    omega
  | root isElement others =>
    rw [Parsing.eq_of_outside others]
    exact ⟨_, isElement⟩

/-- A document is read as it was written if and only if its names are readable. -/
theorem exists_parseDocument_iff {maxDepth : Nat} {root : Element} (htidy : root.Tidy)
    (hlevels : root.levels ≤ maxDepth) :
    (∃ parsed, parseDocument ActiveSync.language maxDepth
      (documentBytes ActiveSync.language root) = .ok parsed ∧
        parsed.root.unqualified = root.unqualified) ↔ root.Readable := by
  rw [documentBytes_eq]
  constructor
  · rintro ⟨parsed, hparsed, hsame⟩
    have hbrackets : parsed.root.brackets = root.brackets := by
      rw [← brackets_unqualified, hsame, brackets_unqualified]
    have htight : openings (elementBytes .utf8 none root) ≤ parsed.root.brackets :=
      Nat.le_of_eq ((openings_elementBytes none htidy).trans hbrackets.symm)
    obtain ⟨bytes, hbytes⟩ := elementBytes_head .utf8 none root
    have houtside := parseDocument_eq_ok_iff.mp hparsed
    rw [prologBytes, unmarked] at houtside
    replace houtside :=
      ((Parsing.outside_prolog_iff ActiveSync.language_declarable hbytes).mp houtside).2
    rw [hbytes] at houtside htight
    obtain ⟨rest, isElement⟩ := isElement_of_outside houtside htight
    rw [← hbytes, ← List.append_nil (elementBytes .utf8 none root)] at isElement
    exact (readable_of_isElement htidy isElement hsame opens_nil (Nat.zero_le _)).1
  · intro readable
    refine ⟨⟨root.readAs .utf8 none⟩, ?_, unqualified_readAs .utf8 none root⟩
    rw [parseDocument_prolog ActiveSync.language_declarable readable (neat_of_tidy .utf8 htidy),
      checkDoctype_doctypeData]
    exact if_pos hlevels

end BinaryXml
