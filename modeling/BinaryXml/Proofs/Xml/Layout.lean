import BinaryXml.Proofs.Xml.Presentable

/-! # Pretty output

* `Element.laidOut`: a tree with the breaks of pretty output as texts.
* `element_laidOut`: pretty output is compact output of that tree.
* `neat_laidOut`: the breaks stand next to no other text.
-/

namespace BinaryXml

open Writing

set_option autoImplicit false

/-! ## Breaks as texts -/

namespace Writing

/-- The break of a layout as a text; nothing in compact output. -/
def breakNodes : Option Layout → List Node
  | none => []
  | some layout => [.text (lineBreak (some layout))]

end Writing

mutual

/-- An element with the breaks of a layout inside. -/
def Element.laidOut (layout : Option Layout) : Element → Element
  | ⟨name, uri, attributes, children⟩ =>
    ⟨name, uri, attributes,
      if children.isEmpty then []
      else
        let layout := if isMixed children then none else layout
        Node.laidOutAll (layout.map Layout.nested) children ++ breakNodes layout⟩

/-- Nodes with the break of a layout in front of each. -/
def Node.laidOutAll (layout : Option Layout) : List Node → List Node
  | [] => []
  | .element child :: rest =>
    breakNodes layout ++ .element (child.laidOut layout) :: Node.laidOutAll layout rest
  | .text content :: rest => breakNodes layout ++ .text content :: Node.laidOutAll layout rest
  | .comment content :: rest => breakNodes layout ++ .comment content :: Node.laidOutAll layout rest

end

mutual

theorem laidOut_none : ∀ root : Element, root.laidOut none = root
  | ⟨_, _, _, children⟩ => by
    rw [Element.laidOut]
    have hnone : (if isMixed children = true then none else none : Option Layout) = none := by
      split <;> rfl
    dsimp only
    rw [hnone, Option.map_none, laidOutAll_none children, breakNodes, List.append_nil]
    cases children <;> rfl

theorem laidOutAll_none : ∀ nodes : List Node, Node.laidOutAll none nodes = nodes
  | [] => by rw [Node.laidOutAll]
  | .element child :: rest => by
    rw [Node.laidOutAll, laidOut_none child, laidOutAll_none rest, breakNodes, List.nil_append]
  | .text content :: rest => by
    rw [Node.laidOutAll, laidOutAll_none rest, breakNodes, List.nil_append]
  | .comment content :: rest => by
    rw [Node.laidOutAll, laidOutAll_none rest, breakNodes, List.nil_append]

end

/-! ## Writing -/

section Written
variable {charset : Charset}

theorem escape_lineBreak (layout : Option Layout) :
    escape charset false (lineBreak layout) = lineBreak layout := by
  have hchar (c : Char) (hc : c = '\n' ∨ c = ' ') : escapeChar charset false c = [c] := by
    rcases hc with rfl | rfl <;> exact flatMap_escapeForeign charset (by decide)
  have hchars (chars : List Char) (h : ∀ c ∈ chars, c = '\n' ∨ c = ' ') :
      chars.flatMap (escapeChar charset false) = chars := by
    induction chars with
    | nil => rfl
    | cons c chars ih =>
      rw [List.flatMap_cons, hchar c (h c List.mem_cons_self),
        ih fun d hd => h d (List.mem_cons_of_mem _ hd), List.singleton_append]
  refine String.toList_inj.mp ?_
  rw [toList_escape]
  cases layout with
  | none => rfl
  | some layout =>
    refine hchars _ fun c hc => ?_
    rw [lineBreak, String.toList_ofList, List.mem_cons, List.mem_replicate] at hc
    exact hc.imp_right (·.2)

theorem lineBreak_none : lineBreak none = "" := rfl

theorem bind_join (front : String) (first second : Except Error String) :
    ((first >>= fun others => second >>= fun last => pure (others ++ last)) >>= fun inside =>
      pure (front ++ inside)) =
        (first >>= fun others => pure (front ++ others)) >>= fun inside =>
          second >>= fun last => pure (inside ++ last) := by
  cases first with
  | error error => rfl
  | ok others =>
    cases second with
    | error error => rfl
    | ok last => exact congrArg Except.ok String.append_assoc.symm

theorem content_append (scope : Option String) : ∀ front back : List Node,
    content charset scope none (front ++ back) = content charset scope none front >>= fun first =>
      content charset scope none back >>= fun second => pure (first ++ second)
  | [], back => by
    rw [List.nil_append, content]
    cases content charset scope none back with
    | error error => rfl
    | ok text => exact congrArg Except.ok String.empty_append.symm
  | .element child :: rest, back => by
    rw [List.cons_append, content, content, content_append scope rest back]
    cases element charset scope none child with
    | error error => rfl
    | ok text => exact bind_join _ _ _
  | .text data :: rest, back => by
    rw [List.cons_append, content, content, content_append scope rest back]
    exact bind_join _ _ _
  | .comment data :: rest, back => by
    rw [List.cons_append, content, content, content_append scope rest back]
    exact bind_join _ _ _

theorem content_breakNodes (scope : Option String) (layout : Option Layout) :
    content charset scope none (breakNodes layout) = .ok (lineBreak layout) := by
  cases layout with
  | none => rw [breakNodes, content]; rfl
  | some layout =>
    rw [breakNodes, content, content, escape_lineBreak]
    refine congrArg Except.ok ?_
    rw [lineBreak, String.empty_append, String.append_empty]

/-- A break is written in front of what follows it. -/
theorem content_break (scope : Option String) (layout : Option Layout) (nodes : List Node) :
    content charset scope none (breakNodes layout ++ nodes) =
      content charset scope none nodes >>= fun text => pure (lineBreak layout ++ text) := by
  rw [content_append, content_breakNodes]
  rfl

/-- The layout inside an element: text in it takes the breaks away. -/
theorem element_of_ne (scope : Option String) (layout : Option Layout) {name : String}
    {uri : Option String} {list : List Attribute} {children : List Node} (h : children ≠ []) :
    element charset scope layout ⟨name, uri, list, children⟩ =
      checkName charset name >>= fun _ => Writing.attributes charset list >>= fun attributesText =>
        content charset (declaration charset scope uri).2
          ((if isMixed children then none else layout).map Layout.nested) children >>= fun inside =>
            pure ("<" ++ name ++ (declaration charset scope uri).1 ++ attributesText ++ ">" ++ inside ++
              lineBreak (if isMixed children then none else layout) ++ "</" ++ name ++ ">") := by
  have hempty : children.isEmpty = false := List.isEmpty_eq_false_iff.mpr h
  rw [element]
  simp only [hempty, Bool.false_eq_true, if_false]

theorem laidOutAll_eq_nil_iff (layout : Option Layout) {nodes : List Node} :
    Node.laidOutAll layout nodes = [] ↔ nodes = [] := by
  cases nodes with
  | nil => rw [Node.laidOutAll]
  | cons node rest => cases node <;> simp [Node.laidOutAll]

theorem laidOut_of_ne (layout : Option Layout) {name : String} {uri : Option String}
    {list : List Attribute} {children : List Node} (h : children ≠ []) :
    Element.laidOut layout ⟨name, uri, list, children⟩ = ⟨name, uri, list,
      Node.laidOutAll ((if isMixed children then none else layout).map Layout.nested) children ++
        breakNodes (if isMixed children then none else layout)⟩ := by
  rw [Element.laidOut, if_neg (by simpa using h)]

mutual

/-- Pretty output is the compact output of the tree with the breaks. -/
theorem element_laidOut (scope : Option String) : ∀ (layout : Option Layout) (root : Element),
    element charset scope layout root = element charset scope none (root.laidOut layout)
  | layout, ⟨name, uri, list, children⟩ => by
    by_cases hchildren : children = []
    · subst hchildren
      rw [Element.laidOut, element, element]
      rfl
    · have hlaid : Node.laidOutAll ((if isMixed children then none else layout).map Layout.nested)
          children ++ breakNodes (if isMixed children then none else layout) ≠ [] := by
        simp [laidOutAll_eq_nil_iff, hchildren]
      have hnone (nodes : List Node) : (if isMixed nodes then none else none : Option Layout) = none := by
        split <;> rfl
      rw [laidOut_of_ne layout hchildren, element_of_ne scope layout hchildren,
        element_of_ne scope none hlaid, hnone, Option.map_none, content_append, content_breakNodes,
        ← content_laidOutAll]
      cases checkName charset name with
      | error error => rfl
      | ok _ =>
        cases Writing.attributes charset list with
        | error error => rfl
        | ok attributesText =>
          cases content charset (declaration charset scope uri).2
              ((if isMixed children then none else layout).map Layout.nested) children with
          | error error => rfl
          | ok inside =>
            refine congrArg Except.ok ?_
            simp only [lineBreak_none, String.append_assoc, String.empty_append]

theorem content_laidOutAll (scope : Option String) : ∀ (layout : Option Layout) (nodes : List Node),
    content charset scope layout nodes = content charset scope none (Node.laidOutAll layout nodes)
  | layout, [] => by rw [Node.laidOutAll, content, content]
  | layout, .element child :: rest => by
    rw [Node.laidOutAll, content_break, content, content, element_laidOut scope layout child,
      content_laidOutAll scope layout rest]
    cases element charset scope none (child.laidOut layout) with
    | error error => rfl
    | ok text =>
      cases content charset scope none (Node.laidOutAll layout rest) with
      | error error => rfl
      | ok others => exact congrArg Except.ok (by simp [lineBreak_none, String.append_assoc])
  | layout, .text data :: rest => by
    rw [Node.laidOutAll, content_break, content, content, content_laidOutAll scope layout rest]
    cases content charset scope none (Node.laidOutAll layout rest) with
    | error error => rfl
    | ok others => exact congrArg Except.ok (by simp [lineBreak_none, String.append_assoc])
  | layout, .comment data :: rest => by
    rw [Node.laidOutAll, content_break, content, content, content_laidOutAll scope layout rest]
    cases content charset scope none (Node.laidOutAll layout rest) with
    | error error => rfl
    | ok others => exact congrArg Except.ok (by simp [lineBreak_none, String.append_assoc])

end

end Written

/-! ## The tree with the breaks -/

theorem lineBreak_ne (layout : Layout) : lineBreak (some layout) ≠ "" := by
  intro hempty
  have hlist := congrArg String.toList hempty
  rw [lineBreak, String.toList_ofList] at hlist
  cases hlist

/-- There are three kinds of elements: without children, with text among them, and with breaks
between them. -/
theorem laidOut_cases (layout : Layout) (name : String) (uri : Option String)
    (attributes : List Attribute) (children : List Node) :
    Element.laidOut (some layout) ⟨name, uri, attributes, children⟩ =
        ⟨name, uri, attributes, children⟩ ∧ (children = [] ∨ isMixed children = true) ∨
      isMixed children = false ∧ Element.laidOut (some layout) ⟨name, uri, attributes, children⟩ =
        ⟨name, uri, attributes, Node.laidOutAll (some layout.nested) children ++
          [.text (lineBreak (some layout))]⟩ := by
  by_cases hchildren : children = []
  · subst hchildren
    exact .inl ⟨by rw [Element.laidOut]; rfl, .inl rfl⟩
  · rw [laidOut_of_ne _ hchildren]
    cases hmixed : isMixed children with
    | true =>
      refine .inl ⟨?_, .inr rfl⟩
      rw [if_pos rfl, Option.map_none, laidOutAll_none, breakNodes, List.append_nil]
    | false => exact .inr ⟨rfl, rfl⟩

theorem Node.levelsAll_append (front back : List Node) :
    Node.levelsAll (front ++ back) = max (Node.levelsAll front) (Node.levelsAll back) := by
  induction front with
  | nil => rw [List.nil_append, Node.levelsAll, Nat.zero_max]
  | cons node rest ih => cases node <;> simp [Node.levelsAll, ih, Nat.max_assoc]

theorem Node.plainNamesAll_append (front back : List Node) :
    Node.PlainNamesAll (front ++ back) ↔ Node.PlainNamesAll front ∧ Node.PlainNamesAll back := by
  induction front with
  | nil => simp [Node.PlainNamesAll]
  | cons node rest ih => cases node <;> simp [Node.PlainNamesAll, ih, and_assoc]

mutual

theorem levels_laidOut (layout : Layout) :
    ∀ root : Element, (root.laidOut (some layout)).levels = root.levels
  | ⟨name, uri, attributes, children⟩ => by
    rcases laidOut_cases layout name uri attributes children with ⟨hsame, -⟩ | ⟨-, hlaid⟩
    · rw [hsame]
    · rw [hlaid, Element.levels_mk, Element.levels_mk, Node.levelsAll_append,
        levelsAll_laidOutAll layout.nested children]
      simp [Node.levelsAll]

theorem levelsAll_laidOutAll (layout : Layout) :
    ∀ nodes : List Node, Node.levelsAll (Node.laidOutAll (some layout) nodes) = Node.levelsAll nodes
  | [] => by rw [Node.laidOutAll]
  | .element child :: rest => by
    simp [Node.laidOutAll, breakNodes, Node.levelsAll, levels_laidOut layout child,
      levelsAll_laidOutAll layout rest]
  | .text content :: rest => by
    simp [Node.laidOutAll, breakNodes, Node.levelsAll, levelsAll_laidOutAll layout rest]
  | .comment content :: rest => by
    simp [Node.laidOutAll, breakNodes, Node.levelsAll, levelsAll_laidOutAll layout rest]

end

mutual

theorem plainNames_laidOut (layout : Layout) :
    ∀ root : Element, root.PlainNames → (root.laidOut (some layout)).PlainNames
  | ⟨name, uri, attributes, children⟩, h => by
    rcases laidOut_cases layout name uri attributes children with ⟨hsame, -⟩ | ⟨-, hlaid⟩
    · rwa [hsame]
    · rw [Element.PlainNames] at h
      obtain ⟨hname, hkeys, hdistinct, hchildren⟩ := h
      have hinside := plainNamesAll_laidOutAll layout.nested children hchildren
      rw [hlaid, Element.PlainNames, Node.plainNamesAll_append]
      exact ⟨hname, hkeys, hdistinct, hinside, by simp [Node.PlainNamesAll]⟩

theorem plainNamesAll_laidOutAll (layout : Layout) : ∀ nodes : List Node,
    Node.PlainNamesAll nodes → Node.PlainNamesAll (Node.laidOutAll (some layout) nodes)
  | [], h => by rwa [Node.laidOutAll]
  | .element child :: rest, h => by
    rw [Node.PlainNamesAll] at h
    have hchild := plainNames_laidOut layout child h.1
    have hrest := plainNamesAll_laidOutAll layout rest h.2
    simpa [Node.laidOutAll, breakNodes, Node.PlainNamesAll] using ⟨hchild, hrest⟩
  | .text content :: rest, h => by
    rw [Node.PlainNamesAll] at h
    simpa [Node.laidOutAll, breakNodes, Node.PlainNamesAll] using
      plainNamesAll_laidOutAll layout rest h
  | .comment content :: rest, h => by
    rw [Node.PlainNamesAll] at h
    simpa [Node.laidOutAll, breakNodes, Node.PlainNamesAll] using
      plainNamesAll_laidOutAll layout rest h

end

mutual

/-- Breaks are put where there is no text, so that no text comes to stand next to another one. -/
theorem neat_laidOut (charset : Charset) (layout : Layout) :
    ∀ root : Element, root.Neat charset → (root.laidOut (some layout)).Neat charset
  | ⟨name, uri, attributes, children⟩, h => by
    rcases laidOut_cases layout name uri attributes children with ⟨hsame, -⟩ | ⟨hmixed, hlaid⟩
    · rwa [hsame]
    · rw [Element.Neat] at h
      rw [hlaid, Element.Neat]
      exact neatAll_laidOutAll charset layout.nested layout children hmixed h

theorem neatAll_laidOutAll (charset : Charset) (layout last : Layout) : ∀ nodes : List Node,
    isMixed nodes = false → Node.NeatAll charset nodes → Node.NeatAll charset
      (Node.laidOutAll (some layout) nodes ++ [.text (lineBreak (some last))])
  | [], _, _ => by simp [Node.laidOutAll, Node.NeatAll, lineBreak_ne]
  | .element child :: rest, hmixed, h => by
    rw [Node.NeatAll] at h
    have hchild := neat_laidOut charset layout child h.1
    have hrest := neatAll_laidOutAll charset layout last rest hmixed h.2
    simpa [Node.laidOutAll, breakNodes, Node.NeatAll, lineBreak_ne] using ⟨hchild, hrest⟩
  | .text content :: rest, hmixed, _ => by cases hmixed
  | .comment content :: rest, hmixed, h => by
    rw [Node.NeatAll] at h
    have hrest := neatAll_laidOutAll charset layout last rest hmixed h.2.2
    simpa [Node.laidOutAll, breakNodes, Node.NeatAll, lineBreak_ne] using ⟨h.1, h.2.1, hrest⟩

end

end BinaryXml
