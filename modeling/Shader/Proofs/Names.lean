import Shader.Proofs.Erasure
import Shader.Proofs.Lexical

/-!
# Names and paths

The names that occur in a function, and the dotted paths that are made of them.  Where no name has a
dot in it, a path can be taken apart again: it starts with the name at its root, and the path of a
member is never the name of a variable.
-/

namespace Shader

/-! ## The names of a function -/

namespace Expr

mutual

/-- The names in an expression: of variables, of properties and of constructors. -/
def names : Expr → List String
  | .literal _ _ => []
  | .ident name _ => [name]
  | .member object property _ => object.names ++ [property.name]
  | .index object i _ => object.names ++ i.names
  | .call callee args _ => callee.names ++ namesArgs args
  | .construct callee args _ => callee.names ++ namesArgs args
  | .binary _ left right _ => left.names ++ right.names
  | .logical _ left right _ => left.names ++ right.names
  | .assign _ target value _ => target.names ++ value.names
  | .conditional test consequent alternate _ =>
    test.names ++ (consequent.names ++ alternate.names)
  | .unary _ argument _ => argument.names
  | .unsupported _ _ => []

/-- The names in arguments. -/
def namesArgs : List Expr → List String
  | [] => []
  | e :: rest => e.names ++ namesArgs rest

end

/-- Only the span of a constructor is forgotten. -/
theorem names_asConstructor (e : Expr) : e.asConstructor.names = e.names := by
  cases e <;> rfl

mutual

/-- An expression and its normal form have the same names. -/
theorem names_normalize : ∀ e : Expr, e.normalize.names = e.names
  | .literal _ _ => rfl
  | .ident _ _ => rfl
  | .member object _ _ => by rw [normalize, names, names, names_normalize object]
  | .index object i _ => by
    rw [normalize, names, names, names_normalize object, names_normalize i]
  | .call callee args _ => by
    rw [normalize, names, names, names_normalize callee, names_normalizeArgs args]
  | .construct callee args _ => by
    rw [normalize, names, names, names_asConstructor callee, names_normalizeArgs args]
  | .binary _ left right _ => by
    rw [normalize, names, names, names_normalize left, names_normalize right]
  | .logical _ left right _ => by
    rw [normalize, names, names, names_normalize left, names_normalize right]
  | .assign _ target value _ => by
    rw [normalize, names, names, names_normalize target, names_normalize value]
  | .conditional test consequent alternate _ => by
    rw [normalize, names, names, names_normalize test, names_normalize consequent,
      names_normalize alternate]
  | .unary _ argument _ => by rw [normalize, names, names, names_normalize argument]
  | .unsupported _ _ => rfl

/-- Arguments and their normal forms have the same names. -/
theorem names_normalizeArgs : ∀ es : List Expr, namesArgs (normalizeArgs es) = namesArgs es
  | [] => rfl
  | e :: rest => by
    rw [normalizeArgs, namesArgs, namesArgs, names_normalize e, names_normalizeArgs rest]

end

end Expr

/-- The names in a declarator. -/
def Declarator.names (d : Declarator) : List String := d.name.name :: d.init.elim [] Expr.names

/-- A declarator and its normal form have the same names. -/
theorem Declarator.names_normalize (d : Declarator) : d.normalize.names = d.names := by
  unfold Declarator.names Declarator.normalize
  cases d.init with
  | none => rfl
  | some e => rw [Option.map_some, Option.elim_some, Option.elim_some, Expr.names_normalize]

namespace Stmt

mutual

/-- The names in a statement. -/
def names : Stmt → List String
  | .declare ds _ => ds.flatMap Declarator.names
  | .expr e _ => e.names
  | .ret none _ => []
  | .ret (some e) _ => e.names
  | .branch test consequent none _ => test.names ++ consequent.names
  | .branch test consequent (some alternate) _ =>
    test.names ++ (consequent.names ++ alternate.names)
  | .block body _ => namesAll body
  | .unsupported _ _ => []

/-- The names in statements. -/
def namesAll : List Stmt → List String
  | [] => []
  | s :: rest => s.names ++ namesAll rest

end

/-- A branch has the names of the statement it is made from. -/
theorem names_asBranch (s : Stmt) : s.asBranch.names = s.names := by
  unfold asBranch
  cases s with
  | block body span => rw [names, branchBody, names]
  | _ => simp [names, branchBody, namesAll]

mutual

/-- A statement and its normal form have the same names. -/
theorem names_normalize : ∀ s : Stmt, s.normalize.names = s.names
  | .declare ds _ => by
    rw [normalize, names, names, List.flatMap_map]
    exact List.flatMap_congr fun d _ => Declarator.names_normalize d
  | .expr e _ => by rw [normalize, names, names, Expr.names_normalize]
  | .ret none _ => rfl
  | .ret (some e) _ => by rw [normalize, Option.map_some, names, names, Expr.names_normalize]
  | .branch test consequent none _ => by
    rw [normalize, names, names, Expr.names_normalize, names_asBranch,
      names_normalize consequent]
  | .branch test consequent (some alternate) _ => by
    rw [normalize, names, names, Expr.names_normalize, names_asBranch, names_asBranch,
      names_normalize consequent, names_normalize alternate]
  | .block body _ => by rw [normalize, names, names, names_normalizeAll body]
  | .unsupported _ _ => rfl

/-- Statements and their normal forms have the same names. -/
theorem names_normalizeAll : ∀ body : List Stmt, namesAll (normalizeAll body) = namesAll body
  | [] => rfl
  | s :: rest => by
    rw [normalizeAll, namesAll, namesAll, names_normalize s, names_normalizeAll rest]

end

end Stmt

/-- The names in a function: of parameters, variables, properties and constructors. -/
def Function.names (f : Function) : List String :=
  f.params.map (·.name) ++ Stmt.namesAll f.body

/-! ## The names of a trace -/

/-- The names that an event is about. -/
def Event.names : Event → List String
  | .declare d => [d.name]
  | .read e => e.erase.names
  | .assign _ target _ => target.erase.names
  | _ => []

namespace TypedExpr

mutual

/-- The events of an expression are about names in it. -/
theorem mem_names_of_mem_events {ev : Event} {name : String} (hname : name ∈ ev.names) :
    ∀ e : TypedExpr, ev ∈ e.events → name ∈ e.erase.names
  | .literal _ _, h => by cases h
  | .ident _ _, h => by
    obtain rfl := List.mem_singleton.1 h
    exact hname
  | .member object property m, h => by
    rcases List.mem_append.1 h with h | h
    · exact List.mem_append_left _ (mem_names_of_mem_events hname object h)
    · obtain rfl := List.mem_singleton.1 h
      exact hname
  | .call callee args _, h => by
    rcases List.mem_append.1 h with h | h
    · exact List.mem_append_left _ (mem_names_of_mem_events hname callee h)
    · exact List.mem_append_right _ (mem_names_of_mem_eventsArgs hname args h)
  | .construct _ args _, h =>
    List.mem_append_right _ (mem_names_of_mem_eventsArgs hname args h)
  | .binary _ left right _, h => by
    rcases List.mem_append.1 h with h | h
    · exact List.mem_append_left _ (mem_names_of_mem_events hname left h)
    · exact List.mem_append_right _ (mem_names_of_mem_events hname right h)
  | .logical _ left right _, h => by
    rcases List.mem_append.1 h with h | h
    · exact List.mem_append_left _ (mem_names_of_mem_events hname left h)
    · exact List.mem_append_right _ (mem_names_of_mem_events hname right h)
  | .assign op target value _, h => by
    rw [events_assign, List.mem_append, List.mem_append, List.mem_singleton] at h
    rcases h with h | h | rfl
    · exact List.mem_append_right _ (mem_names_of_mem_events hname value h)
    · have htarget : ev ∈ target.events := by
        rw [events_eq_accessEvents]
        exact List.mem_append_left _ h
      exact List.mem_append_left _ (mem_names_of_mem_events hname target htarget)
    · exact List.mem_append_left _ hname
  | .conditional test consequent alternate _, h => by
    rw [events, List.mem_append, List.mem_append] at h
    rw [erase, Expr.names, List.mem_append, List.mem_append]
    rcases h with h | h | h
    · exact .inl (mem_names_of_mem_events hname test h)
    · exact .inr (.inl (mem_names_of_mem_events hname consequent h))
    · exact .inr (.inr (mem_names_of_mem_events hname alternate h))
  | .unary _ argument _, h => mem_names_of_mem_events hname argument h

/-- The events of arguments are about names in them. -/
theorem mem_names_of_mem_eventsArgs {ev : Event} {name : String} (hname : name ∈ ev.names) :
    ∀ es : List TypedExpr, ev ∈ eventsArgs es → name ∈ Expr.namesArgs (eraseArgs es)
  | [], h => by cases h
  | e :: rest, h => by
    rcases List.mem_append.1 h with h | h
    · exact List.mem_append_left _ (mem_names_of_mem_events hname e h)
    · exact List.mem_append_right _ (mem_names_of_mem_eventsArgs hname rest h)

end

end TypedExpr

namespace TypedStmt

/-- The events of declarators are about names in them. -/
theorem mem_names_of_mem_declarators {ev : Event} {name : String} (hname : name ∈ ev.names)
    {ds : List TypedDeclarator} (h : ev ∈ ds.flatMap TypedDeclarator.events) :
    name ∈ (ds.map TypedDeclarator.erase).flatMap Declarator.names := by
  obtain ⟨d, hd, h⟩ := List.mem_flatMap.1 h
  refine List.mem_flatMap.2 ⟨d.erase, List.mem_map_of_mem hd, ?_⟩
  unfold TypedDeclarator.erase Declarator.names
  rcases List.mem_append.1 h with h | h
  · refine List.mem_cons_of_mem _ ?_
    cases hinit : d.init with
    | none => simp [hinit] at h
    | some e =>
      rw [hinit] at h
      exact e.mem_names_of_mem_events hname h
  · obtain rfl := List.mem_singleton.1 h
    obtain rfl := List.mem_singleton.1 hname
    exact List.mem_cons_self ..

/-- Only events inside a block are about names. -/
theorem mem_of_mem_block {ev : Event} {name : String} (hname : name ∈ ev.names) {evs : List Event}
    (h : ev ∈ Event.enter :: (evs ++ [Event.leave])) : ev ∈ evs := by
  rw [List.mem_cons, List.mem_append, List.mem_singleton] at h
  rcases h with rfl | h | rfl
  · cases hname
  · exact h
  · cases hname

mutual

/-- The events of a statement are about names in it. -/
theorem mem_names_of_mem_events {ev : Event} {name : String} (hname : name ∈ ev.names) :
    ∀ t : TypedStmt, ev ∈ t.events → name ∈ t.erase.names
  | .declare ds, h => by
    rw [events] at h
    exact mem_names_of_mem_declarators hname h
  | .expr e, h => by
    rw [events] at h
    exact e.mem_names_of_mem_events hname h
  | .ret none, h => by cases h
  | .ret (some e), h => by
    rw [events] at h
    exact e.mem_names_of_mem_events hname h
  | .branch test consequent none, h => by
    rw [events, List.mem_append] at h
    rw [erase, Stmt.names, Stmt.names, List.mem_append]
    rcases h with h | h
    · exact .inl (test.mem_names_of_mem_events hname h)
    · exact .inr (mem_names_of_mem_eventsAll hname consequent (mem_of_mem_block hname h))
  | .branch test consequent (some alternate), h => by
    rw [events, List.mem_append, List.mem_append] at h
    rw [erase, Stmt.names, Stmt.names, Stmt.names, List.mem_append, List.mem_append]
    rcases h with h | h | h
    · exact .inl (test.mem_names_of_mem_events hname h)
    · exact .inr (.inl (mem_names_of_mem_eventsAll hname consequent (mem_of_mem_block hname h)))
    · exact .inr (.inr (mem_names_of_mem_eventsAll hname alternate (mem_of_mem_block hname h)))
  | .block body, h => by
    rw [events] at h
    exact mem_names_of_mem_eventsAll hname body (mem_of_mem_block hname h)

/-- The events of statements are about names in them. -/
theorem mem_names_of_mem_eventsAll {ev : Event} {name : String} (hname : name ∈ ev.names) :
    ∀ body : List TypedStmt, ev ∈ eventsAll body → name ∈ Stmt.namesAll (eraseAll body)
  | [], h => by cases h
  | t :: rest, h => by
    rcases List.mem_append.1 h with h | h
    · exact List.mem_append_left _ (mem_names_of_mem_events hname t h)
    · exact List.mem_append_right _ (mem_names_of_mem_eventsAll hname rest h)

end

end TypedStmt

namespace Function

variable {f : Function} {injections : Injections} {registry : Registry} {t : TypedFunction}

/-- The trace of a function is about names in it. -/
theorem mem_names_of_mem_events (h : f.infer injections registry = .ok t) {ev : Event}
    (hev : ev ∈ t.events) {name : String} (hname : name ∈ ev.names) : name ∈ f.names := by
  have hbody := TypedStmt.mem_names_of_mem_eventsAll hname t.body
    (TypedStmt.mem_of_mem_block hname hev)
  rw [(Function.eraseAll_body h).1, Stmt.names_normalizeAll] at hbody
  exact List.mem_append_right _ hbody

/-- The names that stand for something in a function, at any point of its trace, are names in it. -/
theorem mem_names_of_resolve_ne_free (h : f.infer injections registry = .ok t)
    {pre post : List Event} (hevents : t.events = pre ++ post) {name : String}
    (hname : (t.lexicalAfter pre).resolve name ≠ .free) : name ∈ f.names := by
  rcases TypedFunction.declared_of_resolve_ne_free hevents hname with ⟨d, hd, rfl⟩ | ⟨p, hp, rfl⟩
  · exact mem_names_of_mem_events h hd (List.mem_singleton_self _)
  · refine List.mem_append_left _ ?_
    rw [← Function.erase_params h, List.map_map]
    exact List.mem_map.2 ⟨p, hp, rfl⟩

end Function

/-! ## Paths -/

namespace TypedExpr

/-- The name at the root of a chain of members. -/
def root? : TypedExpr → Option String
  | .ident name _ => some name
  | .member object _ _ => object.root?
  | _ => none

/-- A path starts with the name at its root, which a dot follows unless it is the whole path. -/
theorem path?_eq_root {e : TypedExpr} {path : String} (h : e.path? = some path) :
    ∃ root rest, e.root? = some root ∧ root ∈ e.erase.names ∧
      path.toList = root.toList ++ rest ∧ (rest = [] ∨ ∃ tail, rest = '.' :: tail) := by
  fun_induction path? e generalizing path with
  | case1 name m =>
    obtain rfl := Option.some.inj h
    exact ⟨name, [], rfl, List.mem_singleton_self _, (List.append_nil _).symm, .inl rfl⟩
  | case2 object property m ih =>
    obtain ⟨front, hfront, rfl⟩ := Option.map_eq_some_iff.1 h
    obtain ⟨root, rest, hroot, hmem, hpath, hrest⟩ := ih hfront
    refine ⟨root, rest ++ '.' :: property.toList, hroot, List.mem_append_left _ hmem, ?_, .inr ?_⟩
    · simp [String.toList_append, hpath]
    · rcases hrest with rfl | ⟨tail, rfl⟩
      · exact ⟨_, rfl⟩
      · exact ⟨_, rfl⟩
  | case3 e _ _ => cases h

/-- The path of a member has a dot in it. -/
theorem dot_mem_path {object : TypedExpr} {property path : String} {m : Mark}
    (h : (member object property m).path? = some path) : '.' ∈ path.toList := by
  obtain ⟨front, -, rfl⟩ := Option.map_eq_some_iff.1 h
  simp [String.toList_append]

/-- Where the name at the root of a path has no dot, inference finds it again. -/
theorem root_eq {e : TypedExpr} {path root : String} (hpath : e.path? = some path)
    (hroot : e.root? = some root) (hdot : '.' ∉ root.toList) : Context.root path = root := by
  obtain ⟨root', rest, hroot', -, htext, hrest⟩ := path?_eq_root hpath
  obtain rfl : root' = root := Option.some.inj (hroot'.symm.trans hroot)
  have htake : rest.takeWhile (· != '.') = [] := by
    rcases hrest with rfl | ⟨tail, rfl⟩ <;> rfl
  have hall : ∀ c ∈ root'.toList, (c != '.') = true := by
    intro c hc
    simpa using ne_of_mem_of_not_mem hc hdot
  rw [Context.root, htext, List.takeWhile_append_of_pos hall, htake, List.append_nil,
    String.ofList_toList]

end TypedExpr

end Shader
