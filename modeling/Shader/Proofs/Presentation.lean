import Mathlib.Logic.Relation
import Shader.Proofs.Likeness

/-!
# Loading does not depend on presentation

Parsers hand over the same program in different documents: a missing part is `null` or absent, nodes
carry fields of their own, and empty statements are kept or dropped.  `Json.Edit` is one such
difference, anywhere in a document.  `Program.ofJson_eq_of_edits` says that documents which differ
in this way load alike: to the same program, or to the same error.

An edit keeps a value alike, by induction on its place.  At the place itself the fields hold the
same as before, unless a body gets an empty statement; around it they hold values alike.
-/

namespace Shader

/-! ## Edits -/

/-- The list without the pairs of a name. -/
def Table.remove {α : Type} (name : String) (entries : List (String × α)) : List (String × α) :=
  entries.filter fun pair => pair.1 ≠ name

/-- `Json.Edit v w`: the documents differ in one place, in a way that says nothing. -/
inductive Json.Edit : Json → Json → Prop where
  /-- A field that holds null is deleted. -/
  | dropNull {fields : List (String × Json)} {name : String} :
      Table.find? name fields = some .null →
      Edit (.object fields) (.object (Table.remove name fields))
  /-- A field that is never read is added. -/
  | addField {front back : List (String × Json)} {name : String} {v : Json} :
      name ∉ Node.vocabulary → Edit (.object (front ++ back)) (.object (front ++ (name, v) :: back))
  /-- An empty statement is put into an array that is a body: that of a program or a block, and as
  well that of any other object. -/
  | addEmpty {fields : List (String × Json)} {front back : List Json} {v : Json} :
      Table.find? "body" fields = some (.array (front ++ back)) →
      v.field? "type" = some (.string "EmptyStatement") →
      Edit (.object fields) (.object (Table.set "body" (.array (front ++ v :: back)) fields))
  /-- The difference is inside a field. -/
  | inField {fields : List (String × Json)} {name : String} {v w : Json} :
      Table.find? name fields = some v → Edit v w →
      Edit (.object fields) (.object (Table.set name w fields))
  /-- The difference is inside an item of an array. -/
  | inItem {front back : List Json} {v w : Json} :
      Edit v w → Edit (.array (front ++ v :: back)) (.array (front ++ w :: back))

namespace Table

variable {α : Type} {name other : String}

theorem find?_remove_self (name : String) (entries : List (String × α)) :
    find? name (remove name entries) = none := by
  induction entries with
  | nil => rfl
  | cons pair rest ih =>
    obtain ⟨key, value⟩ := pair
    by_cases hkey : key = name
    · simpa [remove, hkey] using ih
    · simpa [remove, find?, hkey] using ih

theorem find?_remove_of_ne (h : other ≠ name) (entries : List (String × α)) :
    find? other (remove name entries) = find? other entries := by
  induction entries with
  | nil => rfl
  | cons pair rest ih =>
    obtain ⟨key, value⟩ := pair
    by_cases hkey : key = name
    · subst hkey
      simpa [remove, find?, h.symm] using ih
    · by_cases hother : key = other
      · simp [remove, find?, hother, h]
      · simpa [remove, find?, hkey, hother] using ih

theorem find?_insert_of_ne (h : other ≠ name) (front back : List (String × α)) (value : α) :
    find? other (front ++ (name, value) :: back) = find? other (front ++ back) := by
  induction front with
  | nil => simp [find?, h.symm]
  | cons pair rest ih =>
    obtain ⟨key, old⟩ := pair
    simp [find?, ih]

end Table

/-! ## Bodies with one more empty statement -/

namespace Node

/-- What an item of an array gives. -/
def readItem {α : Type} (read : Node → Except LoadError α) (v : Json) : Except LoadError α :=
  match ofJson? v with
  | some m => read m
  | none => .error (.notANode v.describe)

/-- The items of an array are read one after the other. -/
theorem mapItems_eq_mapM {α : Type} {n : Node} {field : String} {vs : List Json}
    (h : Table.find? field n.fields = some (.array vs)) (read : Node → Except LoadError α) :
    n.mapItems field (fun m => read m.1) = vs.mapM (readItem read) := by
  obtain ⟨ws, hws, rfl⟩ := items_eq_ok h
  rw [mapItems, hws, ok_bind, List.mapM_map]
  congr 1
  funext v
  show (n.item v >>= fun m => read m.1) = readItem read v.1
  cases hm : ofJson? v.1 with
  | some m =>
    obtain ⟨_, hinner⟩ := inner?_eq_some hm
    rw [item, hinner, readItem, hm]
    rfl
  | none =>
    rw [item, inner?_eq_none hm, readItem, hm]
    rfl

/-- An item that gives nothing may stand anywhere, also before one that fails. -/
theorem mapM_insert {α : Type} {read : Json → Except LoadError (Option α)} {v : Json}
    (hv : read v = .ok none) (front back : List Json) :
    ((front ++ v :: back).mapM read >>= fun items => (return items.filterMap id)) =
      ((front ++ back).mapM read >>= fun items => (return items.filterMap id)) := by
  rw [List.mapM_append, List.mapM_append, List.mapM_cons, hv]
  simp only [bind_assoc, pure_bind, ok_bind]
  refine bind_congr fun items => bind_congr fun items' => ?_
  simp

theorem child_of_array {n : Node} {field : String} {vs : List Json}
    (h : Table.find? field n.fields = some (.array vs)) :
    n.child field = .error (n.invalid field "a node") := by
  obtain ⟨_, hvalue⟩ := value_eq_ok h nofun
  rw [child, hvalue, ok_bind, inner?_eq_none rfl]

/-- Bodies that differ by an empty statement are read alike. -/
theorem BodyAgrees.of_insert {n m : Node} {front back : List Json} {v : Json} (h : n.Agrees m)
    (hn : Table.find? "body" n.fields = some (.array (front ++ back)))
    (hm : Table.find? "body" m.fields = some (.array (front ++ v :: back)))
    (hv : v.field? "type" = some (.string "EmptyStatement")) : n.BodyAgrees m := by
  obtain ⟨a, -, ha, hkind, -⟩ := ofJson?_of_type hv
  have hkept : ∀ {α : Type} {read : Node → Except LoadError (Option α)}, read a = .ok none →
      n.kept read = m.kept read := by
    intro α read hread
    have hempty : readItem read v = .ok none := by
      rw [readItem, ha]
      exact hread
    rw [kept, kept, mapItems_eq_mapM hn, mapItems_eq_mapM hm, mapM_insert hempty]
  refine ⟨?child, hkept (if_pos hkind), hkept ?function⟩
  case child =>
    rw [child_of_array hn, child_of_array hm, h.invalid]
    exact .error _
  case function => simp only [topLevel, hkind]

end Node

/-! ## Edited documents -/

namespace Json

/-- An edit keeps a value alike. -/
theorem Edit.alike {v w : Json} (h : Edit v w) : Alike v w := by
  induction h with
  | @dropNull fields name hnull =>
    refine alike_object_of_vocabulary fun other _ => alikeAt_of_eq ?_
    by_cases hother : other = name
    · rw [hother, held?, held?, hnull, Table.find?_remove_self]
    · rw [held?, held?, Table.find?_remove_of_ne hother]
  | @addField front back name v hname =>
    refine alike_object_of_vocabulary fun other hother => alikeAt_of_eq ?_
    have hne : other ≠ name := fun heq => hname (heq ▸ hother)
    rw [held?, held?, Table.find?_insert_of_ne hne]
  | @addEmpty fields front back v hbody hempty =>
    refine alike_object (fun other hother => alikeAt_of_eq ?_) ?_
    · have hne : other ≠ "body" := by
        rintro rfl
        exact absurd hother (by decide)
      rw [held?, held?, Table.find?_set_of_ne hne]
    · rintro n m rfl hm hagrees
      refine .of_insert hagrees hbody ?_ hempty
      rw [hm, Table.find?_set_self]
  | @inField fields name v w hv _ ih =>
    refine alike_object_of_vocabulary fun other _ => ?_
    by_cases hother : other = name
    · subst hother
      exact alikeAt_of_alike hv (Table.find?_set_self _ _ _) ih
    · refine alikeAt_of_eq ?_
      rw [held?, held?, Table.find?_set_of_ne hother]
  | @inItem front back v w _ ih =>
    refine .array (List.rel_append ?_ (.cons ih ?_))
    · exact List.forall₂_same.2 fun v _ => .same v
    · exact List.forall₂_same.2 fun v _ => .same v

end Json

/-- Documents that differ by any number of edits load alike: to the same program, or to the same
error. -/
theorem Program.ofJson_eq_of_edits {v w : Json} (h : Relation.ReflTransGen Json.Edit v w) :
    Program.ofJson v = Program.ofJson w := by
  induction h with
  | refl => rfl
  | tail _ hedit ih => exact ih.trans hedit.alike.ofJson_eq

namespace Sample

/-- `{ statements }` -/
def blockNode (statements : List Json) : Json :=
  .object [("type", .string "BlockStatement"), ("body", .array statements)]

/-- `function f() { statements }` -/
def functionNode (statements : List Json) : Json :=
  .object [("type", .string "FunctionDeclaration"),
    ("id", .object [("type", .string "Identifier"), ("name", .string "f")]),
    ("params", .array []), ("body", blockNode statements)]

/-- A program of that function, with some fields of its own. -/
def programNode (fields : List (String × Json)) (statements : List Json) : Json :=
  .object (("type", .string "Program") :: (fields ++ [("body", .array [functionNode statements])]))

/-- `return;` -/
def returnNode : Json := .object [("type", .string "ReturnStatement")]

/-- `;` -/
def emptyNode : Json := .object [("type", .string "EmptyStatement")]

/-- A null is dropped, a field is added and a block gets an empty statement, and the document still
loads to the same program. -/
theorem presentations_load_alike :
    Relation.ReflTransGen Json.Edit (programNode [("range", .null)] [returnNode])
        (programNode [("loc", .bool true)] [returnNode, emptyNode]) ∧
      Program.ofJson (programNode [("range", .null)] [returnNode]) =
        Program.ofJson (programNode [("loc", .bool true)] [returnNode, emptyNode]) := by
  have hdrop : Json.Edit (programNode [("range", .null)] [returnNode])
      (programNode [] [returnNode]) := @Json.Edit.dropNull _ "range" rfl
  have hadd : Json.Edit (programNode [] [returnNode])
      (programNode [("loc", .bool true)] [returnNode]) :=
    @Json.Edit.addField [("type", .string "Program")] _ "loc" _ (by decide)
  have hblock : Json.Edit (blockNode [returnNode]) (blockNode [returnNode, emptyNode]) :=
    @Json.Edit.addEmpty _ [returnNode] [] emptyNode rfl rfl
  have hfunction : Json.Edit (functionNode [returnNode]) (functionNode [returnNode, emptyNode]) :=
    @Json.Edit.inField _ "body" _ _ rfl hblock
  have hempty : Json.Edit (programNode [("loc", .bool true)] [returnNode])
      (programNode [("loc", .bool true)] [returnNode, emptyNode]) :=
    @Json.Edit.inField _ "body" _ _ rfl (@Json.Edit.inItem [] [] _ _ hfunction)
  have hedits := ((Relation.ReflTransGen.single hdrop).tail hadd).tail hempty
  exact ⟨hedits, Program.ofJson_eq_of_edits hedits⟩

end Sample

end Shader
