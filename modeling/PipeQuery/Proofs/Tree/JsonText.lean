import PipeQuery.Proofs.Json.Reindent
import PipeQuery.Proofs.Parser.OneTree
import PipeQuery.Tree.Text

/-!
# The JSON text of a tree

The JSON text of a tree is written with a stack, since the tree may be as deep as it is large. The
writer puts commas, line breaks and brackets by counting: the nodes on the stack, and the children
of each that are written. What it writes is the layout of the JSON form of the tree, which is
defined by recursion.

## Main definitions

* `Json.layout`, `Json.layoutFields`, `Json.layoutItems`: values, fields of objects and items of
  arrays in one of the two layouts

## Main results

* `ParseTree.jsonHead_eq`: the writer and the JSON form name the same fields of a node
* `ParseTree.layout_node`: the layout of a node is its head, its children and its tail
* `ParseTree.jsonFrom_branches`: the children of the innermost open node are written
* `jsonText_eq`: the text of a tree is the layout of its JSON form
-/

namespace PipeQuery

namespace Json

/-! ## The two layouts -/

variable (indented : Bool) (level : Nat)

/-- A value in one of the two layouts, at a level. -/
def layout (j : Json) : String :=
  if indented then j.indented level else j.compact

/-- The fields of an object in one of the two layouts, at the level of the object. -/
def layoutFields (fs : List (String × Json)) : String :=
  if indented then indentedFields level fs else compactFields fs

/-- A field of an object in one of the two layouts, at its level. -/
def layoutField (f : String × Json) : String :=
  ParseTree.jsonBreak indented level ++ quote f.1 ++ (if indented then ": " else ":") ++
    layout indented level f.2

/-- Items of an array in one of the two layouts, at their level, behind so many others. -/
def layoutItems : Nat → List Json → String
  | _, [] => ""
  | written, j :: js =>
    ParseTree.jsonGap indented level written ++ layout indented level j ++
      layoutItems (written + 1) js

theorem jsonValue_eq (j : Json) :
    ParseTree.jsonValue indented level j = layout indented level j := by
  rw [ParseTree.jsonValue, reindent_indented, layout]
  rfl

theorem layoutFields_singleton (f : String × Json) :
    layoutFields indented level [f] = layoutField indented (level + 1) f := by
  cases indented <;>
    simp [layoutFields, compactFields, indentedFields, layoutField, ParseTree.jsonBreak, layout]

/-- A comma stands before every field but the first. -/
theorem layoutFields_cons (f : String × Json) (fs : List (String × Json)) :
    layoutFields indented level (f :: fs) = layoutField indented (level + 1) f ++
      String.join (fs.map fun g => "," ++ layoutField indented (level + 1) g) := by
  induction fs generalizing f with
  | nil =>
    rw [layoutFields_singleton]
    simp
  | cons g fs ih =>
    rw [List.map_cons, String.join_cons, String.append_assoc, ← ih]
    cases indented <;>
      simp [layoutFields, compactFields, indentedFields, layoutField, ParseTree.jsonBreak, layout,
        String.append_assoc]

theorem layoutFields_append {fs : List (String × Json)} (hfs : fs ≠ []) (f : String × Json) :
    layoutFields indented level (fs ++ [f]) =
      layoutFields indented level fs ++ ("," ++ layoutField indented (level + 1) f) := by
  obtain ⟨g, fs, rfl⟩ := List.exists_cons_of_ne_nil hfs
  rw [List.cons_append, layoutFields_cons, layoutFields_cons]
  simp [String.append_assoc]

theorem layout_object {fs : List (String × Json)} (hfs : fs ≠ []) :
    layout indented level (.object fs) = "\x7b" ++ layoutFields indented level fs ++
      ParseTree.jsonBreak indented level ++ "\x7d" := by
  obtain ⟨f, fs, rfl⟩ := List.exists_cons_of_ne_nil hfs
  cases indented <;> simp [layout, compact, Json.indented, layoutFields, ParseTree.jsonBreak]

/-- A comma stands before every item but the first. -/
theorem layoutItems_succ (written : Nat) (j : Json) (js : List Json) :
    layoutItems indented level (written + 1) (j :: js) =
      "," ++ layoutItems indented level 0 (j :: js) := by
  have hwritten (js : List Json) (m n : Nat) :
      layoutItems indented level (m + 1) js = layoutItems indented level (n + 1) js := by
    induction js generalizing m n with
    | nil => rfl
    | cons j js ih => rw [layoutItems, ih (m + 1) (n + 1), layoutItems]; rfl
  rw [layoutItems, layoutItems, hwritten js (written + 1) 0]
  simp [ParseTree.jsonGap, String.append_assoc]

theorem items_eq (js : List Json) :
    (if indented then indentedItems level js else compactItems js) =
      layoutItems indented (level + 1) 0 js := by
  induction js with
  | nil => cases indented <;> simp [indentedItems, compactItems, layoutItems]
  | cons j js ih =>
    cases js with
    | nil =>
      cases indented <;>
        simp [indentedItems, compactItems, layoutItems, ParseTree.jsonGap, ParseTree.jsonBreak,
          layout]
    | cons k js =>
      rw [layoutItems, layoutItems_succ, ← ih]
      cases indented <;>
        simp [indentedItems, compactItems, ParseTree.jsonGap, ParseTree.jsonBreak, layout,
          String.append_assoc]

theorem layout_array (js : List Json) :
    layout indented level (.array js) = "[" ++ layoutItems indented (level + 1) 0 js ++
      (if js.length = 0 then "" else ParseTree.jsonBreak indented level) ++ "]" := by
  rw [← items_eq]
  cases js with
  | nil => cases indented <;> simp [layout, Json.indented, compact, indentedItems, compactItems]
  | cons j js => cases indented <;> simp [layout, Json.indented, compact, ParseTree.jsonBreak]

end Json

namespace ParseTree

variable {t : ParseTree} {id : NodeId} {indented : Bool} {n : Nat}

open Json Branch

/-- The keys of a node. -/
def nodeKeys : List String := ["rule", "label", "span", "error", "children"]

/-- No key of a node needs an escape, which the writer does not look for. -/
theorem quote_key : ∀ key ∈ nodeKeys, quote key = "\"" ++ key ++ "\"" := by
  decide +kernel

theorem jsonKey_layout {key : String} (h : key ∈ nodeKeys) (indented : Bool) (level : Nat)
    (first : Bool) (j : Json) :
    jsonKey indented level key first ++ layout indented level j =
      (if first then "" else ",") ++ layoutField indented level (key, j) := by
  have hcolon : "\":" = "\"" ++ ":" := by decide +kernel
  have hspace : ": " = ":" ++ " " := by decide +kernel
  rw [layoutField, quote_key key h, jsonKey, hcolon]
  cases indented <;> simp [hspace, String.append_assoc]

/-- The writer puts down what the layout of an object with the same field has there. -/
theorem jsonField_eq {key : String} (h : key ∈ nodeKeys) (indented : Bool) (level : Nat)
    (first : Bool) (j : Json) :
    jsonField indented level key first j =
      (if first then "" else ",") ++ layoutField indented level (key, j) := by
  rw [jsonField, jsonValue_eq, jsonKey_layout h]

theorem headFields_ne_nil (t : ParseTree) (id : NodeId) : t.headFields id ≠ [] := by
  simp [headFields]

/-- The writer and the JSON form name the same fields in the same order, the optional ones for the
same nodes; the commas of the writer are those between the fields of an object. -/
theorem jsonHead_eq (t : ParseTree) (indented : Bool) (level : Nat) (id : NodeId) :
    t.jsonHead indented level id = "\x7b" ++ layoutFields indented level (t.headFields id) ++
      jsonKey indented (level + 1) "children" false ++ "[" := by
  rw [jsonHead, headFields, layoutFields_cons]
  -- Each optional field is there on both sides or on neither, and brings its comma with it.
  cases (t.node id).label.isAlternative <;> cases (t.node id).error <;>
    simp (disch := decide) [jsonField_eq, String.append_assoc]

/-- A node is written as its head, its children and its tail. -/
theorem layout_node (t : ParseTree) (indented : Bool) (level : Nat) (id : NodeId) (js : List Json) :
    layout indented level (.object (t.headFields id ++ [("children", .array js)])) =
      t.jsonHead indented level id ++ layoutItems indented (level + 2) 0 js ++
        jsonTail indented level js.length := by
  -- The children are the last field; its key is in the head, its brackets are closed by the tail.
  have hchildren : "," ++ layoutField indented (level + 1) ("children", .array js) =
      jsonKey indented (level + 1) "children" false ++ layout indented (level + 1) (.array js) :=
    (jsonKey_layout (by decide) indented (level + 1) false (.array js)).symm
  rw [layout_object _ _ (by simp), layoutFields_append _ _ (t.headFields_ne_nil id),
    hchildren, layout_array, jsonHead_eq, jsonTail]
  simp only [String.append_assoc]

/-! ## What is written -/

section Steps

variable {stack : Array (NodeId × Nat)} {c : NodeId} {written i : Nat} {out : String}

theorem jsonFrom_close (h : (t.node id).children[written]? = none) :
    t.jsonFrom indented (n + 1) (stack.push (id, written)) out =
      t.jsonFrom indented n stack (out ++ jsonTail indented (2 * stack.size) written) := by
  simp [jsonFrom, h]

theorem jsonFrom_node (h : (t.node id).children[written]? = some (.node c)) :
    t.jsonFrom indented (n + 1) (stack.push (id, written)) out =
      t.jsonFrom indented n ((stack.push (id, written + 1)).push (c, 0))
        (out ++ jsonGap indented (2 * stack.size + 2) written ++
          t.jsonHead indented (2 * stack.size + 2) c) := by
  simp [jsonFrom, h]

theorem jsonFrom_token (h : (t.node id).children[written]? = some (.token i)) :
    t.jsonFrom indented (n + 1) (stack.push (id, written)) out =
      t.jsonFrom indented n (stack.push (id, written + 1))
        (out ++ jsonGap indented (2 * stack.size + 2) written ++
          layout indented (2 * stack.size + 2) (t.leafJson i false)) := by
  simp [jsonFrom, h, jsonValue_eq]

theorem jsonFrom_discarded (h : (t.node id).children[written]? = some (.discarded i)) :
    t.jsonFrom indented (n + 1) (stack.push (id, written)) out =
      t.jsonFrom indented n (stack.push (id, written + 1))
        (out ++ jsonGap indented (2 * stack.size + 2) written ++
          layout indented (2 * stack.size + 2) (t.leafJson i true)) := by
  simp [jsonFrom, h, jsonValue_eq]

end Steps

theorem length_toJsons (t : ParseTree) (bs : List Branch) : (toJsons t bs).length = bs.length := by
  induction bs with
  | nil => rfl
  | cons b bs ih => rw [toJsons, List.length_cons, ih, List.length_cons]

mutual

/-- The next child of the innermost open node is written. -/
theorem jsonFrom_branch (indented : Bool) : ∀ (b : Branch) (_ : t.Contains b) (n : Nat)
    (stack : Array (NodeId × Nat)) (id : NodeId) (before behind : List Slot)
    (_ : t.children id = before ++ b.slot :: behind) (out : String),
    t.jsonFrom indented (n + b.steps) (stack.push (id, before.length)) out =
      t.jsonFrom indented n (stack.push (id, before.length + 1))
        (out ++ jsonGap indented (2 * stack.size + 2) before.length ++
          layout indented (2 * stack.size + 2) (b.toJson t))
  | .node c cs, h, n, stack, id, before, behind, hslot, out => by
    have hchildren : t.children c = [] ++ cs.map slot := h.1
    have hall := jsonFrom_branches indented cs h.2 (n + 1)
      (stack.push (id, before.length + 1)) c [] hchildren
    rw [List.length_nil, Nat.zero_add] at hall
    rw [add_steps_node, jsonFrom_node (children_getElem? hslot), hall,
      jsonFrom_close (children_getElem?_length h.1), Branch.toJson, layout_node, Array.size_push]
    simp only [String.append_assoc, Nat.mul_add, Nat.mul_one, length_toJsons]
  | .token i, _, n, stack, id, before, behind, hslot, out =>
    jsonFrom_token (children_getElem? hslot)
  | .discarded i, _, n, stack, id, before, behind, hslot, out =>
    jsonFrom_discarded (children_getElem? hslot)

/-- The last children of the innermost open node are written. -/
theorem jsonFrom_branches (indented : Bool) : ∀ (bs : List Branch) (_ : t.ContainsAll bs) (n : Nat)
    (stack : Array (NodeId × Nat)) (id : NodeId)
    (before : List Slot) (_ : t.children id = before ++ bs.map slot) (out : String),
    t.jsonFrom indented (n + stepsOf bs) (stack.push (id, before.length))
        out =
      t.jsonFrom indented n (stack.push (id, before.length + bs.length))
        (out ++ layoutItems indented (2 * stack.size + 2) before.length (toJsons t bs))
  | [], _, n, stack, id, before, _, out => by
    simp [stepsOf, toJsons, layoutItems]
  | b :: bs, h, n, stack, id, before, hslots, out => by
    have hrest := jsonFrom_branches indented bs h.2 n stack id
      (before ++ [b.slot]) (by simpa using hslots)
    rw [List.length_append] at hrest
    rw [add_stepsOf_cons, jsonFrom_branch indented b h.1 _ stack id before _ hslots]
    refine (hrest _).trans ?_
    simp only [toJsons, layoutItems, String.append_assoc, List.length_cons, List.length_nil,
      Nat.zero_add, Nat.add_assoc, Nat.add_comm 1]

end

theorem jsonFrom_empty (t : ParseTree) (indented : Bool) (n : Nat) (out : String) :
    t.jsonFrom indented n #[] out = out := by
  cases n <;> rfl

/-- The text of a tree is the layout of its root, if there are steps enough to write it. -/
theorem jsonText_eq_layout {children : List Branch} (h : t.Contains (.node t.root children))
    (hn : (Branch.node t.root children).steps ≤ t.walkLength) (indented : Bool) :
    t.jsonText indented = layout indented 0 ((Branch.node t.root children).toJson t) := by
  obtain ⟨n, hsteps⟩ := exists_eq_of_steps_le hn
  have hall := jsonFrom_branches indented children h.2 (n + 1 + 1) #[] t.root [] h.1
  simp only [List.length_nil, Nat.zero_add] at hall
  show t.jsonFrom indented t.walkLength (Array.push #[] (t.root, 0)) _ = _
  rw [hsteps, hall, jsonFrom_close (children_getElem?_length h.1), jsonFrom_empty, Branch.toJson,
    layout_node, length_toJsons]
  rfl

end ParseTree

/-- **The JSON text of a tree is that of its JSON form**, in both layouts. What the writer puts
down with a stack, comma by comma and level by level, is what recursion on the tree gives: the JSON
form of the root has those of all its descendants in it, since its branch is the whole tree. -/
theorem jsonText_eq {options : Options} {entry : Entry} {tokens : List Token} {t : ParseTree}
    (h : entry.parse options tokens = .ok t) :
    t.Contains (t.branch t.root) ∧ t.jsonText false = t.toJson.compact ∧
      t.jsonText true = t.toJson.indented 0 := by
  obtain ⟨x, hx, -⟩ := Parser.parse_leafIndices entry h
  obtain ⟨l, span, e, children, rfl⟩ := hx.exists_root
  have hbranch := hx.branch_eq hx.root_mem
  have hcontains := hx.holds.contains
  have hlayout := ParseTree.jsonText_eq_layout hcontains hx.steps_le
  rw [ParseTree.toJson, hbranch]
  exact ⟨hcontains, hlayout false, hlayout true⟩

/-- The tree of the expression `"\n" ) b`, with an error and two tokens that are dropped. -/
theorem jsonText_eq_dropped :
    ∃ t, Entry.parse ⟨20, .recover⟩ [⟨.string, "\"\n\"", ⟨0, 3, 1, 1⟩⟩, .ofKind .rightParen,
        .ofKind .name] (.expression 0) = .ok t ∧ t.isValid = false ∧
      t.Contains (t.branch t.root) ∧ t.jsonText false = t.toJson.compact ∧
      t.jsonText true = t.toJson.indented 0 := by
  obtain ⟨t, h, hvalid⟩ : ∃ t, Entry.parse ⟨20, .recover⟩ [⟨.string, "\"\n\"", ⟨0, 3, 1, 1⟩⟩,
      .ofKind .rightParen, .ofKind .name] (.expression 0) = .ok t ∧ t.isValid = false := by
    decide +kernel
  exact ⟨t, h, hvalid, jsonText_eq h⟩

end PipeQuery
