import BinaryXml.Proofs.Document.Levels
import BinaryXml.Proofs.Xml.Tags

/-! # How deep a text may be nested

* `levels_le_of_parseDocument`: a document that is read has no more levels than are allowed.
* `parseDocument_of_limit`: with another depth a text has the same document, or it is refused for
  its depth and nothing else.
-/

namespace BinaryXml

set_option autoImplicit false

namespace Parsing

/-! ## Levels of what is read -/

section Levels
variable {context : Context}

theorem levels_of_startTag {scope : Scope} {depth : Nat} {tag : Tag} {element : Element}
    (h : startTag context scope depth tag = .ok element) :
    depth < context.maxDepth ∧ element.levels = 1 := by
  obtain ⟨hdepth, name, uri, list, -, -, -, -, rfl⟩ := startTag_eq_ok_iff.mp h
  exact ⟨hdepth, by rw [Element.levels_mk, Node.levelsAll]⟩

theorem levels_close {element : Element} {pieces : List Node} :
    (close element pieces).levels = Node.levelsAll pieces + 1 := by
  rw [close, Element.levels_mk, Node.levelsAll_coalesce]

theorem levelsAll_leaf {piece : Markup} {node : Node} (single : leaf? piece = some (.ok node))
    (nodes : List Node) : Node.levelsAll (node :: nodes) = Node.levelsAll nodes := by
  cases node with
  | element child => exact absurd single (leaf?_ne_element child)
  | text data => rw [Node.levelsAll]
  | comment data => rw [Node.levelsAll]

theorem levelsAll_le_of_content {scope : Scope} {depth : Nat} {opened : Open} {text rest : Bytes}
    {nodes : List Node} (h : Content context scope depth opened text nodes rest) :
    Node.levelsAll nodes ≤ context.maxDepth - depth := by
  induction h with
  | leaf _ single _ ih => rwa [levelsAll_leaf single]
  | declaration _ _ ih => exact ih
  | closing => exact Nat.zero_le _
  | empty _ _ start _ ih =>
    obtain ⟨hdepth, hlevels⟩ := levels_of_startTag start
    rw [Node.levelsAll_element, hlevels]
    omega
  | opening _ _ start _ _ ihContent ih =>
    have hdepth := (levels_of_startTag start).1
    rw [Node.levelsAll_element, levels_close]
    omega

theorem levels_le_of_isElement {scope : Scope} {depth : Nat} {text rest : Bytes}
    {element : Element} (h : IsElement context scope depth text element rest) :
    element.levels ≤ context.maxDepth - depth := by
  cases h with
  | empty _ _ start =>
    obtain ⟨hdepth, hlevels⟩ := levels_of_startTag start
    omega
  | opening _ _ start content =>
    have hdepth := (levels_of_startTag start).1
    have hcontent := levelsAll_le_of_content content
    rw [levels_close]
    omega

theorem levels_le_of_outside {text : Bytes} {element : Element}
    (h : Outside context none text element) : element.levels ≤ context.maxDepth := by
  obtain ⟨_, _, isElement⟩ := exists_isElement_of_outside h
  exact levels_le_of_isElement isElement

end Levels

/-! ## Other depths -/

section Deep
variable {context : Context} {maxDepth : Nat}

theorem startTag_of_levels {scope : Scope} {depth : Nat} {tag : Tag} {element : Element}
    (h : startTag context scope depth tag = .ok element) (hdepth : depth < maxDepth) :
    startTag ⟨context.language, maxDepth⟩ scope depth tag = .ok element := by
  obtain ⟨-, hrest⟩ := startTag_eq_ok_iff.mp h
  exact startTag_eq_ok_iff.mpr ⟨hdepth, hrest⟩

/-- Content is read wherever there are enough levels for it. -/
theorem content_of_levels {scope : Scope} {depth : Nat} {opened : Open} {text rest : Bytes}
    {nodes : List Node} (h : Content context scope depth opened text nodes rest)
    (hlevels : Node.levelsAll nodes ≤ maxDepth - depth) :
    Content ⟨context.language, maxDepth⟩ scope depth opened text nodes rest := by
  induction h with
  | leaf starts single _ ih =>
    rw [levelsAll_leaf single] at hlevels
    exact .leaf starts single (ih hlevels)
  | declaration starts _ ih => exact .declaration starts (ih hlevels)
  | closing starts => exact .closing starts
  | empty starts bindings start _ ih =>
    rw [Node.levelsAll_element, (levels_of_startTag start).2] at hlevels
    exact .empty starts bindings (startTag_of_levels start (by omega)) (ih (by omega))
  | opening starts bindings start _ _ ihContent ih =>
    rw [Node.levelsAll_element, levels_close] at hlevels
    exact .opening starts bindings (startTag_of_levels start (by omega)) (ihContent (by omega))
      (ih (by omega))

theorem isElement_of_levels {scope : Scope} {depth : Nat} {text rest : Bytes} {element : Element}
    (h : IsElement context scope depth text element rest) (hlevels : element.levels ≤ maxDepth - depth) :
    IsElement ⟨context.language, maxDepth⟩ scope depth text element rest := by
  cases h with
  | empty starts bindings start =>
    rw [(levels_of_startTag start).2] at hlevels
    exact .empty starts bindings (startTag_of_levels start (by omega))
  | opening starts bindings start content =>
    rw [levels_close] at hlevels
    exact .opening starts bindings (startTag_of_levels start (by omega))
      (content_of_levels content (by omega))

theorem outside_of_levels {root : Option Element} {text : Bytes} {element : Element}
    (h : Outside context root text element) (hlevels : element.levels ≤ maxDepth) :
    Outside ⟨context.language, maxDepth⟩ root text element := by
  induction h with
  | finish => exact .finish
  | blank starts characters blank _ ih => exact .blank starts characters blank (ih hlevels)
  | passed starts passed _ ih => exact .passed starts passed (ih hlevels)
  | doctype starts checked _ ih => exact .doctype starts checked (ih hlevels)
  | root isElement others ih =>
    have hfound := eq_of_outside others
    exact .root (isElement_of_levels isElement (hfound ▸ hlevels)) (ih hlevels)

end Deep

/-- A reader that succeeds has the same result where only `maxDepth` levels are allowed, or it
fails for the depth there. -/
def Shallower {α : Type} (maxDepth : Nat) (deep shallow : Except Error α) : Prop :=
  ∀ value, deep = .ok value → shallow = .ok value ∨ shallow = .error (.tooDeep maxDepth)

section Shallower
variable {language : Language} {maxDepth limit : Nat}

theorem Shallower.refl {α : Type} (result : Except Error α) : Shallower maxDepth result result :=
  fun _ => .inl

theorem Shallower.bind {α β : Type} {first first' : Except Error α}
    {next next' : α → Except Error β} (h : Shallower maxDepth first first')
    (h' : ∀ value, Shallower maxDepth (next value) (next' value)) :
    Shallower maxDepth (first >>= next) (first' >>= next') := by
  intro value hvalue
  obtain ⟨a, hfirst, hnext⟩ := bind_eq_ok_iff.mp hvalue
  rcases h a hfirst with hsame | hdeep
  · rw [hsame]
    exact h' a value hnext
  · rw [hdeep]
    exact .inr rfl

theorem Shallower.after {α β : Type} (first : Except Error α) {next next' : α → Except Error β}
    (h : ∀ value, Shallower maxDepth (next value) (next' value)) :
    Shallower maxDepth (first >>= next) (first >>= next') :=
  (Shallower.refl first).bind h

theorem shallower_startTag (scope : Scope) (depth : Nat) (tag : Tag) :
    Shallower maxDepth (startTag ⟨language, limit⟩ scope depth tag)
      (startTag ⟨language, maxDepth⟩ scope depth tag) := by
  intro element h
  by_cases hdepth : maxDepth ≤ depth
  · refine .inr ?_
    unfold startTag
    rw [if_pos hdepth]
    rfl
  · obtain ⟨-, hrest⟩ := startTag_eq_ok_iff.mp h
    exact .inl (startTag_eq_ok_iff.mpr ⟨Nat.lt_of_not_le hdepth, hrest⟩)

theorem shallower_content (bound : Nat) (scope : Scope) (depth : Nat)
    (opened : Open) (text : Bytes) :
    Shallower maxDepth (content ⟨language, limit⟩ bound scope depth opened text)
      (content ⟨language, maxDepth⟩ bound scope depth opened text) := by
  -- The depth is compared at start tags only; every other piece goes through the same step twice.
  induction bound generalizing scope depth opened text with
  | zero => exact .refl _
  | succ bound ih =>
    cases text with
    | nil => exact .refl _
    | cons b text =>
      have hnode (node : Node) (rest : Bytes) : Shallower maxDepth
          (content ⟨language, limit⟩ bound scope depth opened rest >>= fun found =>
            pure (node :: found.1, found.2))
          (content ⟨language, maxDepth⟩ bound scope depth opened rest >>= fun found =>
            pure (node :: found.1, found.2)) :=
        (ih scope depth opened rest).bind fun _ => .refl _
      unfold content
      refine .after _ fun found => ?_
      obtain ⟨piece, rest⟩ := found
      cases piece with
      | text data => exact .after _ fun data => hnode (.text data) rest
      | cdata data => exact .after _ fun data => hnode (.text data) rest
      | reference name => exact .after _ fun data => hnode (.text data) rest
      | comment data => exact .after _ fun data => hnode (.comment data) rest
      | declaration => exact ih scope depth opened rest
      | doctype data => exact .refl _
      | instruction target => exact .refl _
      | closing name => exact .refl _
      | empty tag =>
        exact .after _ fun inner => (shallower_startTag inner depth tag).bind fun element =>
          hnode (.element element) rest
      | opening tag =>
        exact .after _ fun inner => (shallower_startTag inner depth tag).bind fun element =>
          (ih inner (depth + 1) _ rest).bind fun inside =>
            hnode (.element (close element inside.1)) inside.2

theorem shallower_outside (bound : Nat) (root : Option Element)
    (text : Bytes) :
    Shallower maxDepth (outside ⟨language, limit⟩ bound root text)
      (outside ⟨language, maxDepth⟩ bound root text) := by
  induction bound generalizing root text with
  | zero => exact .refl _
  | succ bound ih =>
    cases text with
    | nil => exact .refl _
    | cons b text =>
      unfold outside
      refine .after _ fun found => ?_
      obtain ⟨piece, rest⟩ := found
      have hothers (root : Option Element) := ih root rest
      cases piece with
      | text data => exact .after _ fun data => .after _ fun _ => hothers root
      | cdata data => exact .after _ fun data => .after _ fun _ => hothers root
      | reference name => exact .after _ fun data => .after _ fun _ => hothers root
      | comment data => exact hothers root
      | declaration => exact hothers root
      | doctype data =>
        cases root with
        | none => exact .after _ fun _ => hothers none
        | some element => exact .refl _
      | instruction target => exact .refl _
      | closing name => exact .refl _
      | empty tag =>
        exact .after _ fun inner => .after _ fun _ =>
          (shallower_startTag inner 0 tag).bind fun element => hothers (some element)
      | opening tag =>
        exact .after _ fun inner => .after _ fun _ =>
          (shallower_startTag inner 0 tag).bind fun element =>
            (shallower_content bound inner 1 _ rest).bind fun inside => ih _ inside.2

end Shallower

end Parsing

/-! ## Documents -/

section Documents
variable {language : Language} {maxDepth limit : Nat} {text : Bytes} {document : Document}

theorem levels_le_of_parseDocument (h : parseDocument language maxDepth text = .ok document) :
    document.root.levels ≤ maxDepth :=
  Parsing.levels_le_of_outside (parseDocument_eq_ok_iff.mp h)

/-- The depth that is allowed never makes another document of a text. -/
theorem parseDocument_of_limit (h : parseDocument language limit text = .ok document) :
    parseDocument language maxDepth text = if document.root.levels ≤ maxDepth then .ok document
      else .error (.tooDeep maxDepth) := by
  split
  · rename_i hlevels
    exact parseDocument_eq_ok_iff.mpr
      (Parsing.outside_of_levels (parseDocument_eq_ok_iff.mp h) hlevels)
  · rename_i hlevels
    unfold parseDocument at h ⊢
    dsimp only at h ⊢
    obtain ⟨root, hroot, rfl⟩ := Parsing.map_eq_ok_iff.mp h
    rcases Parsing.shallower_outside _ none _ root hroot with hsame | hdeep
    · have hread := (Parsing.outside_eq_ok_iff _ (Nat.le_refl _)).mp hsame
      exact absurd (Parsing.levels_le_of_outside hread) hlevels
    · rw [hdeep]
      rfl

end Documents

end BinaryXml
