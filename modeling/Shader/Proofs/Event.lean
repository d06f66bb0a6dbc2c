import Shader.Typing.Tree

/-!
# Events

A typed function says in which order inference went through it.  Its *trace* lists what happens to
names on the way: scopes open and close, variables are declared, names and members are read and
assigned.  The value of an assignment comes before its target.

A trace leaves nothing out.  It meets every name and member of the tree once
(`TypedFunction.places_perm`), makes every assignment once (`TypedFunction.assignments_perm`), and
declares every variable (`TypedFunction.mem_declarations_iff`).
-/

namespace Shader

/-! ## The trace of a tree -/

/-- Something that happens to a name. -/
inductive Event where
  /-- A scope opens. -/
  | enter
  /-- The innermost scope closes. -/
  | leave
  /-- A declarator is complete. -/
  | declare (d : TypedDeclarator)
  /-- A name or member is read. -/
  | read (e : TypedExpr)
  /-- A target is assigned. -/
  | assign (op : AssignOp) (target value : TypedExpr)

namespace TypedExpr

/-- The dotted text of a plain chain of members. -/
def path? : TypedExpr → Option String
  | .ident name _ => some name
  | .member object property _ => object.path?.map fun path => path ++ "." ++ property
  | _ => none

/-- The path of a chain of members, or the kind of an expression that is none. -/
def describe (e : TypedExpr) : String := e.path?.getD e.kindName

/-- Whether an expression is a name or a member. -/
def isPlace : TypedExpr → Bool
  | .ident _ _ | .member _ _ _ => true
  | _ => false

/-- An expression with a path consists of names and members. -/
theorem isPlace_of_path? {e : TypedExpr} {path : String} (h : e.path? = some path) :
    ∀ x ∈ e.all, x.isPlace = true := by
  fun_induction path? e generalizing path with
  | case1 name m =>
    intro x hx
    obtain rfl := List.mem_singleton.1 hx
    rfl
  | case2 object property m ih =>
    obtain ⟨front, hfront, -⟩ := Option.map_eq_some_iff.1 h
    rw [all, List.forall_mem_cons]
    exact ⟨rfl, ih hfront⟩
  | case3 e _ _ => cases h

/-- The operator, target and value of an assignment. -/
def assignment? : TypedExpr → Option (AssignOp × TypedExpr × TypedExpr)
  | .assign op target value _ => some (op, target, value)
  | _ => none

mutual

/-- What happens to names in an expression, in the order of inference. -/
def events : TypedExpr → List Event
  | .literal _ _ => []
  | .ident name m => [.read (.ident name m)]
  | .member object property m => object.events ++ [.read (.member object property m)]
  | .call callee args _ => callee.events ++ eventsArgs args
  | .construct _ args _ => eventsArgs args
  | .binary _ left right _ => left.events ++ right.events
  | .logical _ left right _ => left.events ++ right.events
  | .assign op (.ident name m) value _ => value.events ++ [.assign op (.ident name m) value]
  | .assign op (.member object property m) value _ =>
    value.events ++ (object.events ++ [.assign op (.member object property m) value])
  | .assign op target value _ => value.events ++ (target.events ++ [.assign op target value])
  | .conditional test consequent alternate _ =>
    test.events ++ (consequent.events ++ alternate.events)
  | .unary _ argument _ => argument.events

/-- What happens to names in arguments. -/
def eventsArgs : List TypedExpr → List Event
  | [] => []
  | e :: rest => e.events ++ eventsArgs rest

end

/-- What happens to names on the way to a target, which is not itself read. -/
def accessEvents : TypedExpr → List Event
  | .ident _ _ => []
  | .member object _ _ => object.events
  | e => e.events

/-- The events of an assignment: the value, the way to the target, the assignment itself. -/
theorem events_assign (op : AssignOp) (target value : TypedExpr) (m : Mark) :
    (assign op target value m).events
      = value.events ++ (target.accessEvents ++ [.assign op target value]) := by
  cases target <;> rfl

/-- A name or member is read at the end of its events. -/
theorem events_eq_accessEvents (e : TypedExpr) :
    e.events = e.accessEvents ++ (if e.isPlace then [.read e] else []) := by
  cases e <;> simp [events, accessEvents, isPlace]

end TypedExpr

namespace Event

/-- Whether an event reads or assigns something, and so leaves the lexical scopes alone. -/
def isAccess : Event → Bool
  | .read _ | .assign _ _ _ => true
  | _ => false

/-- The name or member that an event reads or assigns. -/
def place? : Event → Option TypedExpr
  | .read e => some e
  | .assign _ target _ => if target.isPlace then some target else none
  | _ => none

/-- The operator, target and value of an assignment. -/
def assignment? : Event → Option (AssignOp × TypedExpr × TypedExpr)
  | .assign op target value => some (op, target, value)
  | _ => none

/-- The declarator that an event completes. -/
def declarator? : Event → Option TypedDeclarator
  | .declare d => some d
  | _ => none

end Event

namespace TypedExpr

mutual

/-- Expressions only read and assign. -/
theorem isAccess_of_mem_events {ev : Event} : ∀ e : TypedExpr, ev ∈ e.events → ev.isAccess = true
  | .literal _ _, h => by cases h
  | .ident _ _, h => by
    obtain rfl := List.mem_singleton.1 h
    rfl
  | .member object _ _, h => by
    rcases List.mem_append.1 h with h | h
    · exact isAccess_of_mem_events object h
    · obtain rfl := List.mem_singleton.1 h
      rfl
  | .call callee args _, h => by
    rcases List.mem_append.1 h with h | h
    · exact isAccess_of_mem_events callee h
    · exact isAccess_of_mem_eventsArgs args h
  | .construct _ args _, h => isAccess_of_mem_eventsArgs args h
  | .binary _ left right _, h => by
    rcases List.mem_append.1 h with h | h
    · exact isAccess_of_mem_events left h
    · exact isAccess_of_mem_events right h
  | .logical _ left right _, h => by
    rcases List.mem_append.1 h with h | h
    · exact isAccess_of_mem_events left h
    · exact isAccess_of_mem_events right h
  | .assign op target value _, h => by
    rw [events_assign, List.mem_append, List.mem_append, List.mem_singleton] at h
    rcases h with h | h | rfl
    · exact isAccess_of_mem_events value h
    · have htarget : ev ∈ target.events := by
        rw [events_eq_accessEvents]
        exact List.mem_append_left _ h
      exact isAccess_of_mem_events target htarget
    · rfl
  | .conditional test consequent alternate _, h => by
    rw [events, List.mem_append, List.mem_append] at h
    rcases h with h | h | h
    · exact isAccess_of_mem_events test h
    · exact isAccess_of_mem_events consequent h
    · exact isAccess_of_mem_events alternate h
  | .unary _ argument _, h => isAccess_of_mem_events argument h

/-- Arguments only read and assign. -/
theorem isAccess_of_mem_eventsArgs {ev : Event} : ∀ es : List TypedExpr,
    ev ∈ eventsArgs es → ev.isAccess = true
  | [], h => by cases h
  | e :: rest, h => by
    rcases List.mem_append.1 h with h | h
    · exact isAccess_of_mem_events e h
    · exact isAccess_of_mem_eventsArgs rest h

end

end TypedExpr

/-- What happens to names in a declarator: its name is declared after the initializer. -/
def TypedDeclarator.events (d : TypedDeclarator) : List Event :=
  d.init.elim [] TypedExpr.events ++ [.declare d]

namespace TypedStmt

mutual

/-- What happens to names in a statement. -/
def events : TypedStmt → List Event
  | .declare ds => ds.flatMap TypedDeclarator.events
  | .expr e => e.events
  | .ret none => []
  | .ret (some e) => e.events
  | .branch test consequent none => test.events ++ (.enter :: (eventsAll consequent ++ [.leave]))
  | .branch test consequent (some alternate) =>
    test.events ++ ((.enter :: (eventsAll consequent ++ [.leave])) ++
      (.enter :: (eventsAll alternate ++ [.leave])))
  | .block body => .enter :: (eventsAll body ++ [.leave])

/-- What happens to names in statements. -/
def eventsAll : List TypedStmt → List Event
  | [] => []
  | s :: rest => s.events ++ eventsAll rest

end

/-- The declarators of a statement itself, without those of blocks in it. -/
def declarators : TypedStmt → List TypedDeclarator
  | .declare ds => ds
  | _ => []

mutual

/-- The declarators of a statement and of all blocks in it, in source order. -/
def declarations : TypedStmt → List TypedDeclarator
  | .declare ds => ds
  | .branch _ consequent none => declarationsAll consequent
  | .branch _ consequent (some alternate) =>
    declarationsAll consequent ++ declarationsAll alternate
  | .block body => declarationsAll body
  | _ => []

/-- The declarators of statements and of all blocks in them. -/
def declarationsAll : List TypedStmt → List TypedDeclarator
  | [] => []
  | t :: rest => t.declarations ++ declarationsAll rest

end

end TypedStmt

/-- The trace of a function, whose body is a scope of its own. -/
def TypedFunction.events (f : TypedFunction) : List Event :=
  .enter :: (TypedStmt.eventsAll f.body ++ [.leave])

/-- The declarators of a function, in source order. -/
def TypedFunction.declarations (f : TypedFunction) : List TypedDeclarator :=
  TypedStmt.declarationsAll f.body

/-! ## What a trace meets -/

/-- Something that is observed of events, by `f`, and of expressions, by `g`: a place is observed
where it is read, an assignment where it is made, together with its target if that is observed. -/
structure Observation {β : Type} (f : Event → Option β) (g : TypedExpr → Option β) : Prop where
  enter : f .enter = none
  leave : f .leave = none
  declare : ∀ d, f (.declare d) = none
  read : ∀ e, e.isPlace = true → f (.read e) = g e
  assign : ∀ op target value m, (f (.assign op target value)).toList.Perm
    ((if target.isPlace then f (.read target) else none).toList ++
      (g (.assign op target value m)).toList)
  other : ∀ e, e.isPlace = false → e.assignment? = none → g e = none

namespace Observation

variable {β : Type} {f : Event → Option β} {g : TypedExpr → Option β}

/-- What is observed at a node comes before what is observed of its parts. -/
theorem filterMap_cons {α : Type} (k : α → Option β) (a : α) (as : List α) :
    (a :: as).filterMap k = (k a).toList ++ as.filterMap k := by
  rw [List.filterMap_cons]
  cases k a <;> rfl

/-- An expression that is no place and no assignment is not observed itself. -/
theorem parts (h : Observation f g) (e : TypedExpr) {es : List TypedExpr} (he : e.isPlace = false)
    (hassign : e.assignment? = none) : (e :: es).filterMap g = es.filterMap g := by
  rw [filterMap_cons, h.other e he hassign]
  rfl

/-- The events on the way to a target and its assignment show what the target and the assignment
show. -/
theorem target (h : Observation f g) (op : AssignOp) (target value : TypedExpr) (m : Mark) :
    ((target.accessEvents ++ [Event.assign op target value]).filterMap f).Perm
      (target.events.filterMap f ++ (g (.assign op target value m)).toList) := by
  have hread : (if target.isPlace then [Event.read target] else []).filterMap f
      = (if target.isPlace then f (.read target) else none).toList := by
    cases target.isPlace with
    | true => rw [if_pos rfl, if_pos rfl, filterMap_cons, List.filterMap_nil, List.append_nil]
    | false => rfl
  rw [TypedExpr.events_eq_accessEvents, List.filterMap_append, List.filterMap_append, hread,
    filterMap_cons, List.filterMap_nil, List.append_nil, List.append_assoc]
  exact (h.assign op target value m).append_left _

mutual

/-- The events of an expression show what its nodes show. -/
theorem expr (h : Observation f g) : ∀ e : TypedExpr,
    (e.events.filterMap f).Perm (e.all.filterMap g)
  | .literal value m => by
    rw [TypedExpr.events, TypedExpr.all, h.parts (.literal value m) rfl rfl]
    exact .nil
  | .ident name m => by
    rw [TypedExpr.events, TypedExpr.all, filterMap_cons, filterMap_cons, h.read _ rfl]
    exact .refl _
  | .member object property m => by
    rw [TypedExpr.events, TypedExpr.all, List.filterMap_append, filterMap_cons, filterMap_cons,
      h.read _ rfl, List.filterMap_nil, List.append_nil]
    exact List.perm_append_comm.trans ((expr h object).append_left _)
  | .call callee args m => by
    rw [TypedExpr.events, TypedExpr.all, h.parts (.call callee args m) rfl rfl,
      List.filterMap_append, List.filterMap_append]
    exact (expr h callee).append (exprs h args)
  | .construct name args m => by
    rw [TypedExpr.events, TypedExpr.all, h.parts (.construct name args m) rfl rfl]
    exact exprs h args
  | .binary op left right m => by
    rw [TypedExpr.events, TypedExpr.all, h.parts (.binary op left right m) rfl rfl,
      List.filterMap_append, List.filterMap_append]
    exact (expr h left).append (expr h right)
  | .logical op left right m => by
    rw [TypedExpr.events, TypedExpr.all, h.parts (.logical op left right m) rfl rfl,
      List.filterMap_append, List.filterMap_append]
    exact (expr h left).append (expr h right)
  | .assign op target value m => by
    rw [TypedExpr.events_assign, TypedExpr.all, List.filterMap_append, filterMap_cons]
    -- The value is inferred before the target, and the assignment is made after both.
    have htarget := (h.target op target value m).trans ((expr h target).append_right _)
    have hall := (expr h value).append (htarget.trans List.perm_append_comm)
    refine hall.trans (List.perm_append_comm.trans ?_)
    rw [List.append_assoc, List.filterMap_append]
  | .conditional test consequent alternate m => by
    rw [TypedExpr.events, TypedExpr.all, h.parts (.conditional test consequent alternate m) rfl rfl,
      List.filterMap_append, List.filterMap_append, List.filterMap_append, List.filterMap_append]
    exact (expr h test).append ((expr h consequent).append (expr h alternate))
  | .unary op argument m => by
    rw [TypedExpr.events, TypedExpr.all, h.parts (.unary op argument m) rfl rfl]
    exact expr h argument

/-- The events of arguments show what their nodes show. -/
theorem exprs (h : Observation f g) : ∀ es : List TypedExpr,
    ((TypedExpr.eventsArgs es).filterMap f).Perm ((TypedExpr.allArgs es).filterMap g)
  | [] => .nil
  | e :: rest => by
    rw [TypedExpr.eventsArgs, TypedExpr.allArgs, List.filterMap_append, List.filterMap_append]
    exact (expr h e).append (exprs h rest)

end

/-- The events of declarators show what the nodes of their initializers show. -/
theorem declarators (h : Observation f g) (ds : List TypedDeclarator) :
    ((ds.flatMap TypedDeclarator.events).filterMap f).Perm
      ((ds.flatMap fun d => (d.init.map TypedExpr.all).getD []).filterMap g) := by
  induction ds with
  | nil => exact .nil
  | cons d ds ih =>
    rw [List.flatMap_cons, List.flatMap_cons, List.filterMap_append, List.filterMap_append,
      TypedDeclarator.events, List.filterMap_append, List.filterMap_cons_none (h.declare d),
      List.filterMap_nil, List.append_nil]
    refine List.Perm.append ?_ ih
    cases d.init with
    | none => exact .nil
    | some e => exact h.expr e

/-- A scope around some events shows nothing of its own. -/
theorem block (h : Observation f g) (evs : List Event) :
    (Event.enter :: (evs ++ [Event.leave])).filterMap f = evs.filterMap f := by
  rw [List.filterMap_cons_none h.enter, List.filterMap_append, List.filterMap_cons_none h.leave,
    List.filterMap_nil, List.append_nil]

mutual

/-- The events of a statement show what its nodes show. -/
theorem stmt (h : Observation f g) : ∀ t : TypedStmt,
    (t.events.filterMap f).Perm (t.exprs.filterMap g)
  | .declare ds => by
    rw [TypedStmt.events, TypedStmt.exprs]
    exact h.declarators ds
  | .expr e => by
    rw [TypedStmt.events, TypedStmt.exprs]
    exact h.expr e
  | .ret none => .nil
  | .ret (some e) => by
    rw [TypedStmt.events, TypedStmt.exprs]
    exact h.expr e
  | .branch test consequent none => by
    rw [TypedStmt.events, TypedStmt.exprs, List.filterMap_append, h.block, List.filterMap_append]
    exact (h.expr test).append (stmts h consequent)
  | .branch test consequent (some alternate) => by
    rw [TypedStmt.events, TypedStmt.exprs, List.filterMap_append, List.filterMap_append, h.block,
      h.block, List.filterMap_append, List.filterMap_append]
    exact (h.expr test).append ((stmts h consequent).append (stmts h alternate))
  | .block body => by
    rw [TypedStmt.events, TypedStmt.exprs, h.block]
    exact stmts h body

/-- The events of statements show what their nodes show. -/
theorem stmts (h : Observation f g) : ∀ body : List TypedStmt,
    ((TypedStmt.eventsAll body).filterMap f).Perm ((TypedStmt.exprsAll body).filterMap g)
  | [] => .nil
  | t :: rest => by
    rw [TypedStmt.eventsAll, TypedStmt.exprsAll, List.filterMap_append, List.filterMap_append]
    exact (stmt h t).append (stmts h rest)

end

end Observation

/-- The trace of a function meets each name and member of its body once, and nothing else. -/
theorem TypedFunction.places_perm (f : TypedFunction) :
    (f.events.filterMap Event.place?).Perm (f.exprs.filter TypedExpr.isPlace) := by
  have hplace : Observation Event.place? (Option.guard TypedExpr.isPlace) := by
    refine ⟨rfl, rfl, fun _ => rfl, ?_, ?_, ?_⟩
    · intro e he
      simp [Event.place?, Option.guard, he]
    · intro op target value m
      simp [Event.place?, Option.guard, TypedExpr.isPlace]
    · intro e he _
      simp [Option.guard, he]
  rw [events, hplace.block, ← List.filterMap_eq_filter]
  exact hplace.stmts f.body

/-- The trace of a function makes each assignment of its body once, and no other. -/
theorem TypedFunction.assignments_perm (f : TypedFunction) :
    (f.events.filterMap Event.assignment?).Perm (f.exprs.filterMap TypedExpr.assignment?) := by
  have hassign : Observation Event.assignment? TypedExpr.assignment? := by
    refine ⟨rfl, rfl, fun _ => rfl, ?_, ?_, ?_⟩
    · intro e he
      cases e <;> first | rfl | cases he
    · intro op target value m
      simp [Event.assignment?, TypedExpr.assignment?]
    · exact fun _ _ hassign => hassign
  rw [events, hassign.block]
  exact hassign.stmts f.body

namespace TypedStmt

/-- Expressions declare nothing. -/
theorem declares_exprEvents (e : TypedExpr) : e.events.filterMap Event.declarator? = [] := by
  refine List.filterMap_eq_nil_iff.2 ?_
  intro ev hev
  have haccess := e.isAccess_of_mem_events hev
  cases ev with
  | read e => rfl
  | assign op target value => rfl
  | _ => cases haccess

/-- Declarators declare themselves, in order. -/
theorem declares_declarators (ds : List TypedDeclarator) :
    (ds.flatMap TypedDeclarator.events).filterMap Event.declarator? = ds := by
  induction ds with
  | nil => rfl
  | cons d ds ih =>
    have hinit : (d.init.elim [] TypedExpr.events).filterMap Event.declarator? = [] := by
      cases d.init with
      | none => rfl
      | some e => exact declares_exprEvents e
    rw [List.flatMap_cons, List.filterMap_append, ih, TypedDeclarator.events,
      List.filterMap_append, hinit]
    rfl

/-- A scope around some events declares nothing of its own. -/
theorem declares_block (evs : List Event) :
    (Event.enter :: (evs ++ [Event.leave])).filterMap Event.declarator?
      = evs.filterMap Event.declarator? := by
  rw [List.filterMap_cons_none rfl, List.filterMap_append, List.filterMap_cons_none rfl,
    List.filterMap_nil, List.append_nil]

mutual

/-- The events of a statement declare its declarators, in order. -/
theorem declares_events : ∀ t : TypedStmt, t.events.filterMap Event.declarator? = t.declarations
  | .declare ds => by
    rw [events, declarations, declares_declarators]
  | .expr e => by
    rw [events, declares_exprEvents]
    rfl
  | .ret none => rfl
  | .ret (some e) => by
    rw [events, declares_exprEvents]
    rfl
  | .branch test consequent none => by
    rw [events, declarations, List.filterMap_append, declares_exprEvents, declares_block,
      declares_eventsAll consequent]
    rfl
  | .branch test consequent (some alternate) => by
    rw [events, declarations, List.filterMap_append, List.filterMap_append, declares_exprEvents,
      declares_block, declares_block, declares_eventsAll consequent, declares_eventsAll alternate]
    rfl
  | .block body => by
    rw [events, declarations, declares_block, declares_eventsAll body]

/-- The events of statements declare their declarators, in order. -/
theorem declares_eventsAll : ∀ body : List TypedStmt,
    (eventsAll body).filterMap Event.declarator? = declarationsAll body
  | [] => rfl
  | t :: rest => by
    rw [eventsAll, declarationsAll, List.filterMap_append, declares_events t,
      declares_eventsAll rest]

end

end TypedStmt

/-- The trace of a function declares its declarators. -/
theorem TypedFunction.mem_declarations_iff (f : TypedFunction) {d : TypedDeclarator} :
    Event.declare d ∈ f.events ↔ d ∈ f.declarations := by
  rw [declarations, ← TypedStmt.declares_eventsAll, ← TypedStmt.declares_block,
    List.mem_filterMap]
  constructor
  · intro h
    exact ⟨_, h, rfl⟩
  · rintro ⟨ev, hev, hd⟩
    cases ev with
    | declare d' =>
      obtain rfl := Option.some.inj hd
      exact hev
    | _ => cases hd

end Shader
