import Shader.Proofs.Demotion
import Shader.Proofs.Erasure
import Shader.Proofs.Expansion
import Shader.Proofs.InjectedPath
import Shader.Proofs.Relevance

/-!
# Injected paths resolve at any depth

A key of the injections such as `env.light.color` is read in a program as a chain of members.
Inference goes up the chain from its root, and at each member asks the injections about the text of
the chain so far.  That text is a prefix of the key, so the injections have an answer: an entry of
its own, or a record, for there is the key below it.  The answer counts before the type of the
object does, so entries of any type may lie on the way.  It even counts where a declaration hides a
parameter: then only the root has the type of what hides it.

Nothing in the scopes is in the way of a text with a dot as long as no path was assigned.  The first
half of this module describes the scopes in which inference is before the first assignment
(`Scopes.Unassigned`): declarations bind names in the frames of blocks, the frame of the parameters
is as it was at the start, and the outermost frame is empty.  The second half follows the chain.
-/

namespace Shader

/-! ## Texts of paths -/

namespace Bare

/-- A text consists of the parts between its dots, with a dot before each but the first. -/
theorem join_splitDots (cs : List Char) :
    (splitDots cs).1 ++ (splitDots cs).2.flatMap ('.' :: ·) = cs := by
  induction cs with
  | nil => rfl
  | cons c cs ih =>
    by_cases hdot : c = '.'
    · simp only [splitDots, hdot, if_true, List.nil_append, List.flatMap_cons, List.cons_append, ih]
    · simp only [splitDots, hdot, if_false, List.cons_append, ih]

theorem dot_notMem_splitDots (cs : List Char) : '.' ∉ (splitDots cs).1 := by
  induction cs with
  | nil => exact List.not_mem_nil
  | cons c cs ih =>
    by_cases hdot : c = '.'
    · simp [splitDots, hdot]
    · simp [splitDots, hdot, ih, Ne.symm hdot]

theorem path?_member {e : Expr} {path property : String} (h : e.path? = some path) :
    (member e property).path? = some (path ++ "." ++ property) := by
  rw [member, Expr.path?, h]
  rfl

end Bare

namespace Injections

/-- The ascription of a path that is injected or that something is injected below: its own entry,
and a record if it has none. -/
def entry (injections : Injections) (path : String) : Ascription :=
  (injections.get? path).getD (.ofTy (.object .record))

/-- The entries of the paths from a root on, where the root itself has the ascription `b`. -/
def entryFrom (injections : Injections) (root : String) (b : Ascription) (path : String) :
    Ascription :=
  if path = root then b else injections.entry path

theorem entryFrom_entry (injections : Injections) (root path : String) :
    injections.entryFrom root (injections.entry root) path = injections.entry path := by
  unfold entryFrom
  split
  · rename_i hpath
    rw [hpath]
  · rfl

theorem entryFrom_of_isBelow (injections : Injections) {root path : String} (b : Ascription)
    (h : isBelow root path = true) : injections.entryFrom root b path = injections.entry path := by
  refine if_neg ?_
  rintro rfl
  obtain ⟨rest, hrest⟩ := isBelow_iff.1 h
  simp at hrest

/-- A key that continues a path with some parts is the path or lies below it. -/
theorem eq_or_isBelow_of_parts {path key : String} {parts : List (List Char)}
    (h : key.toList = path.toList ++ parts.flatMap ('.' :: ·)) :
    path = key ∨ isBelow path key = true := by
  cases parts with
  | nil =>
    rw [List.flatMap_nil, List.append_nil] at h
    exact .inl (String.toList_inj.1 h.symm)
  | cons part parts =>
    rw [List.flatMap_cons] at h
    exact .inr (isBelow_iff.2 ⟨_, h⟩)

/-- A key and the paths above it resolve to their entries. -/
theorem resolve?_of_key {injections : Injections} {key path : String} {a : Ascription}
    (h : injections.get? key = some a) (hpath : path = key ∨ isBelow path key = true) :
    injections.resolve? path = some (injections.entry path) := by
  unfold resolve? entry
  cases hget : injections.get? path with
  | some b => rfl
  | none =>
    have hbelow : isBelow path key = true := by
      rcases hpath with rfl | hbelow
      · rw [h] at hget
        cases hget
      · exact hbelow
    have hmembers : injections.hasMembers path = true :=
      hasMembers_iff.2 ⟨key, hbelow, by rw [h]; rfl⟩
    simp [hmembers]

end Injections

namespace Bare

theorem dot_notMem_first (key : String) :
    '.' ∉ (String.ofList (splitDots key.toList).1).toList := by
  rw [String.toList_ofList]
  exact dot_notMem_splitDots key.toList

theorem toList_eq_parts (key : String) :
    key.toList = (String.ofList (splitDots key.toList).1).toList ++
      (splitDots key.toList).2.flatMap ('.' :: ·) := by
  rw [String.toList_ofList]
  exact (join_splitDots key.toList).symm

/-- The first part of a text is its root. -/
theorem root_eq_splitDots (key : String) :
    Context.root key = String.ofList (splitDots key.toList).1 := by
  have hdot := dot_notMem_first key
  rcases Injections.eq_or_isBelow_of_parts (toList_eq_parts key) with hkey | hbelow
  · rw [hkey] at hdot
    exact (Context.root_of_no_dot hdot).trans hkey.symm
  · exact Context.root_of_isBelow hbelow hdot

end Bare

/-! ## Parts without assignments -/

/-- Whether there is an assignment in a declarator. -/
def Declarator.assigns (d : Declarator) : Bool := d.init.any Expr.assigns

namespace Stmt

mutual

/-- Whether there is an assignment in a statement. -/
def assigns : Stmt → Bool
  | .declare ds _ => ds.any Declarator.assigns
  | .expr e _ => e.assigns
  | .ret none _ => false
  | .ret (some e) _ => e.assigns
  | .branch test consequent none _ => test.assigns || consequent.assigns
  | .branch test consequent (some alternate) _ =>
    test.assigns || consequent.assigns || alternate.assigns
  | .block body _ => anyAssigns body
  | .unsupported _ _ => false

/-- Whether there is an assignment in one of the statements. -/
def anyAssigns : List Stmt → Bool
  | [] => false
  | s :: rest => s.assigns || anyAssigns rest

end

theorem anyAssigns_branchBody (s : Stmt) : anyAssigns s.branchBody = s.assigns := by
  cases s <;> simp [branchBody, anyAssigns, assigns]

end Stmt

namespace Scopes

/-- `s.Declares names s'`: the scopes `s'` are `s` with some of the names bound in the innermost
frame. -/
inductive Declares (names : List String) : Scopes → Scopes → Prop where
  | refl {s : Scopes} : Declares names s s
  | insert {s s₁ : Scopes} {name : String} : Declares names s s₁ → name ∈ names → (b : Binding) →
      Declares names s (s₁.insert name b)

namespace Declares

variable {names names' : List String} {s s₁ s₂ : Scopes}

theorem mono (h : s.Declares names s₁) (hnames : names ⊆ names') : s.Declares names' s₁ := by
  induction h with
  | refl => exact .refl
  | insert _ hname b ih => exact .insert ih (hnames hname) b

theorem trans (h₁ : s.Declares names s₁) (h₂ : s₁.Declares names s₂) : s.Declares names s₂ := by
  induction h₂ with
  | refl => exact h₁
  | insert _ hname b ih => exact .insert ih hname b

theorem append (h₁ : s.Declares names s₁) (h₂ : s₁.Declares names' s₂) :
    s.Declares (names ++ names') s₂ :=
  (h₁.mono (List.subset_append_left _ _)).trans (h₂.mono (List.subset_append_right _ _))

/-- Names that are bound in an opened scope are gone when it is closed. -/
theorem pop_of_push (h : s.push.Declares names s₁) : s₁.pop.2 = s := by
  have hframe : ∃ frame, s₁ = ⟨frame :: s.inner, s.outermost⟩ := by
    induction h with
    | refl => exact ⟨.empty, rfl⟩
    | @insert _ name _ _ b ih =>
      obtain ⟨frame, rfl⟩ := ih
      exact ⟨frame.insert name b, rfl⟩
  obtain ⟨frame, rfl⟩ := hframe
  rfl

end Declares

end Scopes

section Declares

variable {cx : Context}

theorem DeclaratorRun.declares {s s' : Scopes} {d : Declarator} {t : TypedDeclarator}
    (h : DeclaratorRun cx s d t s') (hquiet : d.assigns = false) : s.Declares d.names s' := by
  cases h with
  | init he =>
    rw [he.scopes_eq hquiet]
    exact .insert .refl List.mem_cons_self _
  | injected _ => exact .insert .refl List.mem_cons_self _
  | pending _ => exact .insert .refl List.mem_cons_self _

theorem Thread.declaresDeclarators {s s' : Scopes} {ds : List Declarator}
    {ts : List TypedDeclarator} (h : Thread (DeclaratorRun cx) s ds ts s')
    (hquiet : ds.any Declarator.assigns = false) : s.Declares (ds.flatMap Declarator.names) s' := by
  induction h with
  | nil => exact .refl
  | cons hd _ ih =>
    rw [List.any_cons, Bool.or_eq_false_iff] at hquiet
    rw [List.flatMap_cons]
    exact (hd.declares hquiet.1).append (ih hquiet.2)

theorem Thread.declares {s s' : InferState} {body : List Stmt} {ts : List TypedStmt}
    (h : Thread (fun s st _ s' => st.assigns = false → s.scopes.Declares st.names s'.scopes)
      s body ts s')
    (hquiet : Stmt.anyAssigns body = false) :
    s.scopes.Declares (Stmt.namesAll body) s'.scopes := by
  induction h with
  | nil => exact .refl
  | cons hst _ ih =>
    rw [Stmt.anyAssigns, Bool.or_eq_false_iff] at hquiet
    rw [Stmt.namesAll]
    exact (hst hquiet.1).append (ih hquiet.2)

/-- A block without assignments leaves the scopes as they are. -/
theorem BlockRun.scopes_eq {s s' : InferState} {body : List Stmt} {typed : List TypedStmt}
    (h : BlockRun (fun s st _ s' => st.assigns = false → s.scopes.Declares st.names s'.scopes)
      s body typed s')
    (hquiet : Stmt.anyAssigns body = false) : s'.scopes = s.scopes := by
  obtain ⟨unsettled, inside, hthread, -, rfl⟩ := h
  exact (hthread.declares hquiet).pop_of_push

/-- A statement without assignments binds its own names in the innermost frame, if any. -/
theorem StmtRun.declares {s s' : InferState} {st : Stmt} {t : TypedStmt}
    (h : StmtRun cx s st t s') (hquiet : st.assigns = false) :
    s.scopes.Declares st.names s'.scopes := by
  induction h using StmtRun.induct with
  | declare hds =>
    rw [Stmt.assigns] at hquiet
    exact hds.declaresDeclarators hquiet
  | @expr s s₁ e span t he =>
    have hscopes : s₁ = s.scopes := he.scopes_eq hquiet
    rw [hscopes]
    exact .refl
  | retNone => exact .refl
  | @retSome s s₁ e span t he =>
    have hscopes : s₁ = s.scopes := he.scopes_eq hquiet
    rw [hscopes]
    exact .refl
  | @branch s i s₁ test consequent span t us cs ht hus hcs ihc =>
    rw [Stmt.assigns, Bool.or_eq_false_iff] at hquiet
    have htest : s₁ = s.scopes := ht.scopes_eq hquiet.1
    have hbody := (ihc.mono Exists.snd).scopes_eq
      ((Stmt.anyAssigns_branchBody _).trans hquiet.2)
    rw [hbody, htest]
    exact .refl
  | @branchElse s i j s₁ test consequent alternate span t us cs vs as ht hus hcs hvs has ihc iha =>
    rw [Stmt.assigns, Bool.or_eq_false_iff, Bool.or_eq_false_iff] at hquiet
    have htest : s₁ = s.scopes := ht.scopes_eq hquiet.1.1
    have hfirst := (ihc.mono Exists.snd).scopes_eq
      ((Stmt.anyAssigns_branchBody _).trans hquiet.1.2)
    have hsecond := (iha.mono Exists.snd).scopes_eq
      ((Stmt.anyAssigns_branchBody _).trans hquiet.2)
    rw [hsecond, hfirst, htest]
    exact .refl
  | block _ _ ih =>
    rw [Stmt.assigns] at hquiet
    rw [(ih.mono Exists.snd).scopes_eq hquiet]
    exact .refl

end Declares

namespace Part

/-- Whether there is an assignment in a part. -/
def assigns : Part → Bool
  | .expr e => e.assigns
  | .declarator d => d.assigns
  | .stmt st => st.assigns
  | .stmts body => Stmt.anyAssigns body
  | .block body => Stmt.anyAssigns body

/-- The names in a part. -/
def names : Part → List String
  | .expr e => e.names
  | .declarator d => d.names
  | .stmt st => st.names
  | .stmts body => Stmt.namesAll body
  | .block body => Stmt.namesAll body

/-- `p.Succeeds cx s s'`: from the state `s` the part `p` is inferred, and `s'` is the state after
it. -/
def Succeeds (cx : Context) (s s' : InferState) : Part → Prop
  | .expr e => ∃ t, (cx.expr e).Yields s t s'
  | .declarator d => ∃ t, (cx.declarator d).Yields s t s'
  | .stmt st => ∃ t, (cx.stmt st).Yields s t s'
  | .stmts body => ∃ ts, (cx.stmts body).Yields s ts s'
  | .block body => ∃ ts, (Context.inBlock (cx.stmts body)).Yields s ts s'

/-- A part without assignments binds its own names in the innermost frame, if any. -/
theorem Succeeds.declares {cx : Context} {s s' : InferState} {p : Part}
    (h : p.Succeeds cx s s') (hquiet : p.assigns = false) :
    s.scopes.Declares p.names s'.scopes := by
  cases p with
  | expr e =>
    obtain ⟨t, ht⟩ := h
    rw [Context.expr_still ht hquiet]
    exact .refl
  | declarator d =>
    obtain ⟨t, ht⟩ := h
    obtain ⟨σ, rfl, hrun⟩ := Context.declarator_derives cx ht
    exact hrun.declares hquiet
  | stmt st =>
    obtain ⟨t, ht⟩ := h
    exact (Context.stmt_derives cx st ht).declares hquiet
  | stmts body =>
    obtain ⟨ts, hts⟩ := h
    exact ((Context.stmts_derive cx body hts).mono fun h => h.declares).declares hquiet
  | block body =>
    obtain ⟨ts, hts⟩ := h
    have hblock := Context.inBlock_derives (Context.stmts_derive cx body) hts
    rw [(hblock.mono fun h => h.declares).scopes_eq hquiet]
    exact .refl

end Part

/-! ## States before the first assignment -/

namespace Function

/-- `f.Approaches injections registry s`: inference of `f` can be in the state `s` while nothing has
been assigned.  It starts in the body, opens scopes, and goes through parts that it can infer, that
have their names from `f` and that assign nothing. -/
inductive Approaches (f : Function) (injections : Injections) (registry : Registry) :
    InferState → Prop where
  | start {params : List (Ident × Ascription)} :
      f.ascribedParams injections = .ok params →
      Approaches f injections registry ⟨(bodyScopes params).push, []⟩
  | enter {s : InferState} :
      Approaches f injections registry s →
      Approaches f injections registry { s with scopes := s.scopes.push }
  | after {s s' : InferState} (p : Part) :
      Approaches f injections registry s → p.names ⊆ f.names → p.assigns = false →
      p.Succeeds (f.context injections registry) s s' →
      Approaches f injections registry s'

end Function

/-- `s.Unassigned f injections`: the frames of blocks bind names of `f`, the frame of the parameters
binds each of them to its injected ascription, and the outermost frame is empty. -/
inductive Scopes.Unassigned (f : Function) (injections : Injections) : Scopes → Prop where
  | mk {top : Frame} {blocks : List Frame} {frame : Frame} :
      (∀ block ∈ top :: blocks, ∀ name, (block.get? name).isSome = true → name ∈ f.names) →
      (∀ name, frame.get? name =
        if name ∈ f.params.map (·.name) then (injections.resolve? name).map .ofAscription
        else none) →
      Unassigned f injections ⟨top :: (blocks ++ [frame]), .empty⟩

namespace Scopes

variable {f : Function} {injections : Injections} {s s' : Scopes}

theorem Unassigned.push (h : s.Unassigned f injections) : s.push.Unassigned f injections := by
  obtain @⟨top, blocks, frame, hblocks, hframe⟩ := h
  refine @Unassigned.mk f injections .empty (top :: blocks) frame ?_ hframe
  intro block hblock name hname
  rcases List.mem_cons.1 hblock with rfl | hblock
  · cases hname
  · exact hblocks block hblock name hname

theorem Unassigned.insert (h : s.Unassigned f injections) {name : String} (hname : name ∈ f.names)
    (b : Binding) : (s.insert name b).Unassigned f injections := by
  obtain @⟨top, blocks, frame, hblocks, hframe⟩ := h
  obtain ⟨htop, hrest⟩ := List.forall_mem_cons.1 hblocks
  refine Unassigned.mk (List.forall_mem_cons.2 ⟨?_, hrest⟩) hframe
  intro other hother
  by_cases heq : other = name
  · exact heq ▸ hname
  · rw [Table.get?_insert_of_ne _ heq] at hother
    exact htop other hother

theorem Declares.unassigned {names : List String} (h : s.Declares names s')
    (hnames : names ⊆ f.names) (hs : s.Unassigned f injections) : s'.Unassigned f injections := by
  induction h with
  | refl => exact hs
  | insert _ hname b ih => exact ih.insert (hnames hname) b

end Scopes

/-- Before the first assignment the scopes are as at the start, but for the names that blocks
declare. -/
theorem Function.Approaches.unassigned {f : Function} {injections : Injections}
    {registry : Registry} {s : InferState} (h : f.Approaches injections registry s) :
    s.scopes.Unassigned f injections := by
  induction h with
  | @start params hparams =>
    obtain ⟨hnames, hresolve⟩ := Function.ascribedParams_eq_ok hparams
    obtain ⟨frame, hscopes, hframe⟩ := Function.bodyScopes_eq hresolve
    rw [hscopes]
    refine @Scopes.Unassigned.mk f injections .empty [] frame ?_ ?_
    · intro block hblock name hname
      obtain rfl := List.mem_singleton.1 hblock
      cases hname
    · intro name
      have hparam : (params.any fun p => p.1.name == name) = true ↔
          name ∈ f.params.map (·.name) := by
        simp [← hnames]
      simp only [hframe, hparam]
  | enter _ ih => exact ih.push
  | after p _ hnames hquiet hp ih => exact (hp.declares hquiet).unassigned hnames ih

/-! ## Looking up before the first assignment -/

namespace Scopes

/-- The binding that a declaration gave a name: one in a frame other than that of the parameters,
which is the last. -/
def declared? (s : Scopes) (name : String) : Option Binding := findFrame? name s.inner.dropLast

theorem findFrame?_append (name : String) (frames frames' : List Frame) :
    findFrame? name (frames ++ frames') =
      (findFrame? name frames).or (findFrame? name frames') := by
  induction frames with
  | nil => rfl
  | cons frame rest ih =>
    rw [List.cons_append, findFrame?, findFrame?]
    cases frame.get? name with
    | none => exact ih
    | some b => rfl

theorem findFrame?_eq_none {name : String} {frames : List Frame}
    (h : ∀ frame ∈ frames, frame.get? name = none) : findFrame? name frames = none := by
  induction frames with
  | nil => rfl
  | cons frame rest ih =>
    obtain ⟨hframe, hrest⟩ := List.forall_mem_cons.1 h
    rw [findFrame?, hframe]
    exact ih hrest

namespace Unassigned

variable {f : Function} {injections : Injections} {s : Scopes} {name : String}

/-- A name that no declaration binds is looked up among the parameters. -/
theorem lookup?_eq (h : s.Unassigned f injections) (hfree : s.declared? name = none) :
    s.lookup? name =
      if name ∈ f.params.map (·.name) then (injections.resolve? name).map .ofAscription
      else none := by
  obtain @⟨top, blocks, frame, -, hframe⟩ := h
  rw [declared?, ← List.cons_append, List.dropLast_concat] at hfree
  have hfind : findFrame? name (top :: (blocks ++ [frame])) = frame.get? name := by
    rw [← List.cons_append, findFrame?_append, hfree, Option.none_or, findFrame?]
    cases frame.get? name <;> rfl
  rw [lookup?, hfind, hframe]
  split
  · rename_i b hb
    exact hb.symm
  · rename_i hnone
    exact hnone.symm

/-- A text with a dot is not bound at all. -/
theorem lookup?_of_dot (h : s.Unassigned f injections) (hdots : ∀ name ∈ f.names, '.' ∉ name.toList)
    (hname : '.' ∈ name.toList) : s.lookup? name = none := by
  have hnames : name ∉ f.names := fun hmem => hdots name hmem hname
  have hfree : s.declared? name = none := by
    obtain @⟨top, blocks, frame, hblocks, -⟩ := h
    rw [declared?, ← List.cons_append, List.dropLast_concat]
    refine findFrame?_eq_none fun block hblock => ?_
    exact Option.not_isSome_iff_eq_none.1 fun hsome => hnames (hblocks block hblock name hsome)
  rw [h.lookup?_eq hfree, if_neg]
  exact fun hparam => hnames (List.mem_append_left _ hparam)

end Unassigned

end Scopes

namespace Context

variable {f : Function} {injections : Injections} {registry : Registry} {s : Scopes}

/-- A name that no declaration binds has the ascription that it is injected with. -/
theorem ident_of_unassigned {name : String} {a : Ascription} {span : Option Span}
    (h : s.Unassigned f injections) (hfree : s.declared? name = none)
    (ha : injections.resolve? name = some a) :
    (f.context injections registry).ident s name span = .ok a := by
  have hresolve : (f.context injections registry).injections.resolve? name = some a := ha
  by_cases hparam : name ∈ f.params.map (·.name)
  · rw [ident, h.lookup?_eq hfree, if_pos hparam, ha]
    obtain ⟨ty, _ | v⟩ := a <;> rfl
  · rw [ident, h.lookup?_eq hfree, if_neg hparam, hresolve]

/-- Below a parameter, hidden or not, and below a name that no declaration binds, paths resolve as
they are injected. -/
theorem injectedPath?_of_unassigned {root path : String} (h : s.Unassigned f injections)
    (hdots : ∀ name ∈ f.names, '.' ∉ name.toList) (hroot : '.' ∉ root.toList)
    (hfree : root ∈ f.params.map (·.name) ∨ s.declared? root = none)
    (hbelow : Injections.isBelow root path = true) :
    (f.context injections registry).injectedPath? s path = injections.resolve? path := by
  have hinjectable : (f.context injections registry).isInjectable s path = true := by
    rw [isInjectable, root_of_isBelow hbelow hroot, Bool.or_eq_true]
    by_cases hparam : root ∈ f.params.map (·.name)
    · exact .inl (List.contains_iff_mem.2 hparam)
    · rw [h.lookup?_eq (hfree.resolve_left hparam), if_neg hparam]
      exact .inr rfl
  have hdot : '.' ∈ path.toList := by
    obtain ⟨rest, hrest⟩ := Injections.isBelow_iff.1 hbelow
    rw [hrest]
    exact List.mem_append_right _ List.mem_cons_self
  exact injectedPath?_of_lookup?_eq_none hinjectable (h.lookup?_of_dot hdots hdot)

/-! ## Along the chain -/

/-- `cx.Resolves s root b e path t`: in the state `s` the chain `e` is inferred as `t` and has the
text `path`, and `t` and the chains in it have the entries of their texts, the root apart, which has
the ascription `b`. -/
structure Resolves (cx : Context) (s : InferState) (root : String) (b : Ascription) (e : Expr)
    (path : String) (t : TypedExpr) : Prop where
  yields : (cx.expr e).Yields s t s
  text : e.path? = some path
  typedText : t.path? = some path
  erased : t.erase = e
  ascribed : t.ascription = cx.injections.entryFrom root b path
  entries : ∀ x ∈ t.all, ∃ p, x.path? = some p ∧
    (p = path ∨ Injections.isBelow p path = true) ∧
    x.ascription = cx.injections.entryFrom root b p

variable {cx : Context} {s : InferState} {root : String} {b : Ascription}

open Infer

theorem Resolves.ident (h : cx.ident s.scopes root none = .ok b) :
    cx.Resolves s root b (Bare.ident root) root (.ident root ⟨b, none⟩) where
  yields := yields_ident_iff.2 ⟨_, h, rfl⟩
  text := rfl
  typedText := rfl
  erased := rfl
  ascribed := (if_pos rfl).symm
  entries x hx := by
    obtain rfl := List.mem_singleton.1 hx
    exact ⟨root, rfl, .inl rfl, (if_pos rfl).symm⟩

/-- One member further, the text is asked for before the type of the object is. -/
theorem Resolves.member {e : Expr} {path property : String} {t : TypedExpr}
    (h : cx.Resolves s root b e path t)
    (hroot : Injections.isBelow root (path ++ "." ++ property) = true)
    (hpath : cx.injectedPath? s.scopes (path ++ "." ++ property) =
      some (cx.injections.entry (path ++ "." ++ property))) :
    cx.Resolves s root b (Bare.member e property) (path ++ "." ++ property)
      (.member t property ⟨cx.injections.entry (path ++ "." ++ property), none⟩) where
  yields := by
    rw [Bare.member, expr]
    refine yields_bind_iff.2 ⟨t, s, h.yields, ?_⟩
    refine yields_bind_iff.2 ⟨_, _, yields_scopes_iff.2 ⟨rfl, rfl⟩, ?_⟩
    refine yields_bind_iff.2 ⟨_, s, yields_ofExcept_iff.2 ⟨?_, rfl⟩, yields_pure_iff.2 ⟨rfl, rfl⟩⟩
    rw [← Bare.member, Bare.path?_member h.text]
    exact member_of_injectedPath? hpath
  text := Bare.path?_member h.text
  typedText := by rw [TypedExpr.path?, h.typedText]; rfl
  erased := by rw [TypedExpr.erase, h.erased]; rfl
  ascribed := (cx.injections.entryFrom_of_isBelow b hroot).symm
  entries x hx := by
    rcases List.mem_cons.1 hx with rfl | hx
    · refine ⟨_, ?_, .inl rfl, (cx.injections.entryFrom_of_isBelow b hroot).symm⟩
      rw [TypedExpr.path?, h.typedText]
      rfl
    · obtain ⟨p, hp, habove, hascribed⟩ := h.entries x hx
      refine ⟨p, hp, .inr ?_, hascribed⟩
      rcases habove with rfl | habove
      · exact Injections.isBelow_member p property
      · exact Injections.isBelow_trans habove (Injections.isBelow_member path property)

/-- A chain that resolves still does when the rest of a key is appended to it. -/
theorem Resolves.append {key : String} {a : Ascription}
    (hkey : cx.injections.get? key = some a)
    (hbelow : ∀ path, Injections.isBelow root path = true →
      cx.injectedPath? s.scopes path = cx.injections.resolve? path)
    (parts : List (List Char)) {e : Expr} {path : String} {t : TypedExpr}
    (hpath : path = root ∨ Injections.isBelow root path = true)
    (hparts : key.toList = path.toList ++ parts.flatMap ('.' :: ·))
    (h : cx.Resolves s root b e path t) :
    ∃ t', cx.Resolves s root b
      (parts.foldl (fun object part => Bare.member object (String.ofList part)) e) key t' := by
  -- the chain so far is a prefix of the key, and the rest of the key is what the list still holds
  induction parts generalizing e path t with
  | nil =>
    rw [List.flatMap_nil, List.append_nil] at hparts
    obtain rfl := String.toList_inj.1 hparts
    exact ⟨t, h⟩
  | cons part parts ih =>
    have hrest : key.toList =
        (path ++ "." ++ String.ofList part).toList ++ parts.flatMap ('.' :: ·) := by
      rw [hparts]
      simp
    have hroot : Injections.isBelow root (path ++ "." ++ String.ofList part) = true := by
      rcases hpath with rfl | hpath
      · exact Injections.isBelow_member path _
      · exact Injections.isBelow_trans hpath (Injections.isBelow_member path _)
    have habove := Injections.eq_or_isBelow_of_parts hrest
    have hmember := (hbelow _ hroot).trans (Injections.resolve?_of_key hkey habove)
    exact ih (.inr hroot) hrest (h.member hroot hmember)

/-- Before the first assignment, the chain for a key resolves if its root does, where the root is a
parameter or a name that no declaration binds. -/
theorem resolves_path {f : Function} {injections : Injections} {registry : Registry} {key : String}
    {a : Ascription} (hdots : ∀ name ∈ f.names, '.' ∉ name.toList)
    (hs : s.scopes.Unassigned f injections) (hkey : injections.get? key = some a)
    (hfree : Context.root key ∈ f.params.map (·.name) ∨
      s.scopes.declared? (Context.root key) = none)
    (hroot : (f.context injections registry).ident s.scopes (Context.root key) none = .ok b) :
    ∃ t, (f.context injections registry).Resolves s (Context.root key) b (Bare.path key) key t := by
  rw [Bare.root_eq_splitDots] at hfree hroot ⊢
  refine (Resolves.ident hroot).append hkey ?_ (Bare.splitDots key.toList).2 (.inl rfl)
    (Bare.toList_eq_parts key)
  exact fun _ => injectedPath?_of_unassigned hs hdots (Bare.dot_notMem_first key) hfree

end Context

/-- An injected path resolves, however long it is.  Before the first assignment, the chain of
members for a key is inferred wherever no declaration hides its root.  It has the ascription of the
key, and each chain in it has its own entry, or is a record without a value.  Where a declaration
hides a parameter, the same holds of all but the root, which is what the declaration made it. -/
theorem Function.injected_paths_resolve {f : Function} {injections : Injections}
    {registry : Registry} {s : InferState} {key : String} {a : Ascription}
    (hdots : ∀ name ∈ f.names, '.' ∉ name.toList) (hs : f.Approaches injections registry s)
    (hkey : injections.get? key = some a) :
    (s.scopes.declared? (Context.root key) = none →
      ∃ t, ((f.context injections registry).expr (Bare.path key)).Yields s t s ∧
        t.erase = Bare.path key ∧ t.path? = some key ∧ t.ascription = a ∧
        ∀ x ∈ t.all, ∃ path, x.path? = some path ∧
          (path = key ∨ Injections.isBelow path key = true) ∧
          x.ascription = (injections.get? path).getD (.ofTy (.object .record))) ∧
    (Context.root key ∈ f.params.map (·.name) → ∀ b,
      (f.context injections registry).ident s.scopes (Context.root key) none = .ok b →
      ∃ t, ((f.context injections registry).expr (Bare.path key)).Yields s t s ∧
        t.erase = Bare.path key ∧ t.path? = some key ∧
        ∀ x ∈ t.all, ∃ path, x.path? = some path ∧
          (path = key ∨ Injections.isBelow path key = true) ∧
          x.ascription = if path = Context.root key then b
            else (injections.get? path).getD (.ofTy (.object .record))) := by
  have hunassigned := hs.unassigned
  constructor
  · intro hfree
    have habove : Context.root key = key ∨ Injections.isBelow (Context.root key) key = true := by
      rw [Bare.root_eq_splitDots]
      exact Injections.eq_or_isBelow_of_parts (Bare.toList_eq_parts key)
    have hroot : (f.context injections registry).ident s.scopes (Context.root key) none =
        .ok (injections.entry (Context.root key)) :=
      Context.ident_of_unassigned hunassigned hfree (Injections.resolve?_of_key hkey habove)
    obtain ⟨t, ht⟩ := Context.resolves_path hdots hunassigned hkey (.inr hfree) hroot
    refine ⟨t, ht.yields, ht.erased, ht.typedText, ?_, ?_⟩
    · rw [ht.ascribed]
      refine (injections.entryFrom_entry _ key).trans ?_
      exact congrArg (Option.getD · _) hkey
    · intro x hx
      obtain ⟨path, hpath, hupto, hentry⟩ := ht.entries x hx
      exact ⟨path, hpath, hupto, hentry.trans (injections.entryFrom_entry _ path)⟩
  · intro hparam b hroot
    obtain ⟨t, ht⟩ := Context.resolves_path hdots hunassigned hkey (.inl hparam) hroot
    exact ⟨t, ht.yields, ht.erased, ht.typedText, ht.entries⟩

namespace Sample

/-- A number with a constant, and a constant two members below it. -/
def depths : Injections :=
  ⟨[("env.a", ⟨.number, some (.number 3)⟩), ("env.a.b.c", ⟨.int, some (.number 7)⟩)]⟩

/-- `let width = env.a;` -/
def measure : Stmt := Bare.declare [("width", some (Bare.member (Bare.ident "env") "a"))]

/-- `let env = 1;` -/
def hide : Stmt := Bare.declare [("env", some (Bare.int 1))]

/-- `function dive(env) { let width = env.a; { let env = 1; return env.a.b.c; } }` -/
def dive : Function :=
  Bare.function "dive" ["env"] [measure, Bare.block [hide, Bare.ret (some (Bare.member
    (Bare.member (Bare.member (Bare.ident "env") "a") "b") "c"))]]

/-- The state after `let width = env.a;`. -/
def measured : InferState :=
  ⟨⟨[Table.empty.insert "width" (.typed .number),
    Table.empty.insert "env" (.typed (.object .record))], .empty⟩, []⟩

/-- The state after `let env = 1;`. -/
def hidden : InferState :=
  ⟨{ measured.scopes with
    inner := Table.empty.insert "env" (.typed .int) :: measured.scopes.inner }, []⟩

theorem measured_approaches : dive.Approaches depths registry measured := by
  have hstart : dive.Approaches depths registry ⟨(Function.bodyScopes
      [(⟨"env", none⟩, .ofTy (.object .record))]).push, []⟩ := .start rfl
  exact hstart.after (.stmt measure) (by decide) rfl ⟨_, rfl⟩

theorem hidden_approaches : dive.Approaches depths registry hidden :=
  measured_approaches.enter.after (.stmt hide) (by decide) rfl ⟨_, rfl⟩

/-- Below a number with a value there is a record, and in it the constant.  It is still there when
an integer hides the parameter. -/
theorem dive_path_resolves :
    (∀ name ∈ dive.names, '.' ∉ name.toList) ∧
    depths.get? "env.a.b.c" = some ⟨.int, some (.number 7)⟩ ∧
    dive.Approaches depths registry measured ∧
    measured.scopes.declared? (Context.root "env.a.b.c") = none ∧
    (∃ t, ((dive.context depths registry).expr (Bare.path "env.a.b.c")).Yields measured t measured ∧
      t.path? = some "env.a.b.c" ∧ t.ascription = ⟨.int, some (.number 7)⟩ ∧
      ∀ x ∈ t.all, ∃ path, x.path? = some path ∧
        x.ascription = (depths.get? path).getD (.ofTy (.object .record))) ∧
    dive.Approaches depths registry hidden ∧
    (dive.context depths registry).ident hidden.scopes (Context.root "env.a.b.c") none =
      .ok (.ofTy .int) ∧
    ∃ t, ((dive.context depths registry).expr (Bare.path "env.a.b.c")).Yields hidden t hidden ∧
      t.path? = some "env.a.b.c" ∧
      ∀ x ∈ t.all, ∃ path, x.path? = some path ∧
        x.ascription = if path = "env" then .ofTy .int
          else (depths.get? path).getD (.ofTy (.object .record)) := by
  have hdots : ∀ name ∈ dive.names, '.' ∉ name.toList := by decide
  have hkey : depths.get? "env.a.b.c" = some ⟨.int, some (.number 7)⟩ := rfl
  have hroot : Context.root "env.a.b.c" = "env" := by decide
  have hfree : measured.scopes.declared? (Context.root "env.a.b.c") = none := by
    rw [hroot]
    rfl
  have hparam : Context.root "env.a.b.c" ∈ dive.params.map (·.name) := by
    rw [hroot]
    exact List.mem_cons_self
  have hident : (dive.context depths registry).ident hidden.scopes (Context.root "env.a.b.c") none =
      .ok (.ofTy .int) := by
    rw [hroot]
    rfl
  obtain ⟨t, hyields, -, htext, hascribed, hentries⟩ :=
    (Function.injected_paths_resolve hdots measured_approaches hkey).1 hfree
  obtain ⟨u, huyields, -, hutext, huentries⟩ :=
    (Function.injected_paths_resolve hdots hidden_approaches hkey).2 hparam _ hident
  refine ⟨hdots, hkey, measured_approaches, hfree, ⟨t, hyields, htext, hascribed, ?_⟩,
    hidden_approaches, hident, u, huyields, hutext, ?_⟩
  · intro x hx
    obtain ⟨path, hpath, -, hentry⟩ := hentries x hx
    exact ⟨path, hpath, hentry⟩
  · intro x hx
    obtain ⟨path, hpath, -, hentry⟩ := huentries x hx
    rw [hroot] at hentry
    exact ⟨path, hpath, hentry⟩

end Sample

end Shader
