import Shader.Proofs.Balance
import Shader.Proofs.Event

/-!
# How the declarations of a block settle

A variable that is declared without initializer may stay pending for a while, until an assignment in
its block, or in a block inside, gives it a type.  When the block ends, its declarations settle with
the frame of its scope, and a variable that is pending still is an error.

The settling goes through the declarators of the block, while what is pending is told by the frame.
`Frame.Records` ties the two together: all names of the declarators are bound in the frame, and what
is pending there was declared without initializer by one of them.  Every statement of a block keeps
this (`Context.stmts_record`), whatever it declares again and whatever blocks inside assign.
`Function.blocks_settle` is the result.
-/

namespace Shader

/-- The declarators of a statement itself, without those of blocks in it. -/
def Stmt.declarators : Stmt → List Declarator
  | .declare ds _ => ds
  | _ => []

/-! ## Frames and the declarators that filled them -/

/-- `frame.Records ds`: the declarators `ds` have filled the frame.  All their names are bound, and
a name that is pending was declared without initializer. -/
structure Frame.Records (frame : Frame) (ds : List Declarator) : Prop where
  bound : ∀ d ∈ ds, (frame.get? d.name.name).isSome = true
  pending : ∀ name, frame.get? name = some .pending → ∃ d ∈ ds, d.init = none ∧ d.name.name = name

namespace Frame.Records

variable {frame frame' : Frame} {ds : List Declarator}

/-- A frame without names records nothing. -/
theorem empty : Frame.Records .empty [] := ⟨by simp, by simp⟩

/-- A refined frame binds the same names, and has nothing pending that was not. -/
theorem refine (h : frame.Records ds) (hframe : Frame.Refines frame frame') :
    frame'.Records ds where
  bound d hd := by
    have hrel := hframe d.name.name
    obtain ⟨b, hb⟩ := Option.isSome_iff_exists.1 (h.bound d hd)
    rw [hb] at hrel
    generalize frame'.get? d.name.name = after at hrel
    cases hrel
    rfl
  pending name hname := by
    have hrel := hframe name
    rw [hname] at hrel
    apply h.pending name
    generalize frame.get? name = before at hrel
    cases hrel with
    | some hb =>
      cases hb
      rfl

/-- A declared name is bound anew, and pending only when it has no initializer. -/
theorem declare (h : frame.Records ds) (d : Declarator) {b : Binding}
    (hb : b = .pending → d.init = none) :
    Frame.Records (frame.insert d.name.name b) (ds ++ [d]) where
  bound e he := by
    by_cases hname : e.name.name = d.name.name
    · rw [hname, Table.get?_insert_self]
      rfl
    · rw [Table.get?_insert_of_ne _ hname]
      rcases List.mem_append.1 he with he | he
      · exact h.bound e he
      · exact absurd (by rw [List.mem_singleton.1 he]) hname
  pending name hpending := by
    by_cases hname : name = d.name.name
    · subst hname
      rw [Table.get?_insert_self] at hpending
      exact ⟨d, by simp, hb (Option.some.inj hpending), rfl⟩
    · rw [Table.get?_insert_of_ne _ hname] at hpending
      obtain ⟨e, he, hinit⟩ := h.pending name hpending
      exact ⟨e, List.mem_append_left _ he, hinit⟩

end Frame.Records

/-! ## What statements record -/

namespace Scopes

variable {cx : Context} {s s' : Scopes} {ds : List Declarator}

/-- Scopes that are refined throughout have a refined innermost frame. -/
theorem Keeps.innermost (h : s.Keeps cx 0 s') (hs : s.inner ≠ []) :
    Frame.Refines s.pop.1 s'.pop.1 := by
  obtain ⟨frame, frames, hinner⟩ := List.exists_cons_of_ne_nil hs
  have hrefines := h.refines.inner
  rw [hinner] at hrefines
  cases hinner' : s'.inner with
  | nil =>
    rw [hinner'] at hrefines
    cases hrefines
  | cons frame' frames' =>
    rw [hinner'] at hrefines
    rw [pop_of_inner_eq_cons hinner, pop_of_inner_eq_cons hinner']
    exact (List.forall₂_cons.1 hrefines).1

/-- A name is bound in the innermost frame. -/
theorem pop_insert (hs : s.inner ≠ []) (name : String) (b : Binding) :
    (s.insert name b).pop.1 = s.pop.1.insert name b := by
  obtain ⟨frame, frames, hinner⟩ := List.exists_cons_of_ne_nil hs
  rw [insert_of_inner_eq_cons hinner, pop_of_inner_eq_cons hinner]
  rfl

end Scopes

/-- A successful step that keeps the scopes ends with kept scopes. -/
theorem Infer.Yields.keeps {cx : Context} {own : Nat} {α : Type} {m : Infer α} {s s' : InferState}
    {a : α} (h : m.Yields s a s') (hm : m.KeepsFrom cx own s) (hs : s.scopes.Sound cx) :
    s.scopes.Keeps cx own s'.scopes := by
  have hkeeps := hm hs
  rwa [h] at hkeeps

namespace Context

open Infer

variable {cx : Context} {s s' : InferState} {ds : List Declarator}

/-- What declares no name in the innermost frame leaves its record as it is. -/
theorem records_of_keeps (h : s.scopes.Keeps cx 0 s'.scopes) (hs : s.scopes.Sound cx)
    (hds : s.scopes.pop.1.Records ds) : s'.scopes.pop.1.Records ds :=
  hds.refine (h.innermost hs.nested)

/-- A declarator is recorded. -/
theorem declarator_records {d : Declarator} {t : TypedDeclarator}
    (h : (cx.declarator d).Yields s t s') (hs : s.scopes.Sound cx)
    (hds : s.scopes.pop.1.Records ds) : s'.scopes.pop.1.Records (ds ++ [d]) := by
  obtain ⟨name, init, span⟩ := d
  cases init with
  | some e =>
    simp only [declarator, yields_bind_iff, yields_modifyScopes_iff, yields_pure_iff] at h
    obtain ⟨t, s₁, ht, _, _, rfl, rfl, rfl⟩ := h
    have hkeeps := ht.keeps (expr_keeps cx e s) hs
    rw [Scopes.pop_insert (hkeeps.sound hs).nested]
    exact (records_of_keeps hkeeps hs hds).declare ⟨name, some e, span⟩ (by simp)
  | none =>
    cases hget : cx.injections.get? name.name with
    | some a =>
      simp only [declarator, hget, yields_bind_iff, yields_modifyScopes_iff, yields_pure_iff] at h
      obtain ⟨_, _, rfl, rfl, rfl⟩ := h
      rw [Scopes.pop_insert hs.nested]
      exact hds.declare ⟨name, none, span⟩ (by simp)
    | none =>
      simp only [declarator, hget, yields_bind_iff, yields_modifyScopes_iff, yields_pure_iff] at h
      obtain ⟨_, _, rfl, rfl, rfl⟩ := h
      rw [Scopes.pop_insert hs.nested]
      exact hds.declare ⟨name, none, span⟩ (by simp)

/-- The declarators of a declaration are recorded in order. -/
theorem declarators_record {es : List Declarator} {ts : List TypedDeclarator}
    (h : (cx.declarators es).Yields s ts s') (hs : s.scopes.Sound cx)
    (hds : s.scopes.pop.1.Records ds) : s'.scopes.pop.1.Records (ds ++ es) := by
  induction es generalizing s ds ts with
  | nil =>
    rw [declarators, yields_pure_iff] at h
    obtain ⟨-, rfl⟩ := h
    rwa [List.append_nil]
  | cons d es ih =>
    simp only [declarators, yields_bind_iff, yields_pure_iff] at h
    obtain ⟨t, s₁, ht, ts, _, hts, -, rfl⟩ := h
    have hkeeps := ht.keeps (declarator_keeps cx d s) hs
    have hrest := ih hts (hkeeps.sound hs) (declarator_records ht hs hds)
    rwa [List.append_assoc, List.singleton_append] at hrest

/-- A statement records what it declares itself. -/
theorem stmt_records {st : Stmt} {t : TypedStmt} (h : (cx.stmt st).Yields s t s')
    (hs : s.scopes.Sound cx) (hds : s.scopes.pop.1.Records ds) :
    s'.scopes.pop.1.Records (ds ++ st.declarators) := by
  have hkeeps := h.keeps (stmt_keeps cx st s) hs
  cases st with
  | declare es span =>
    simp only [stmt, yields_bind_iff, yields_pure_iff] at h
    obtain ⟨ts, _, hts, -, rfl⟩ := h
    exact declarators_record hts hs hds
  | _ =>
    rw [Stmt.declarators, List.append_nil]
    · exact records_of_keeps hkeeps hs hds
    · simp

/-- Statements record what they declare themselves, in order. -/
theorem stmts_record {body : List Stmt} {ts : List TypedStmt}
    (h : (cx.stmts body).Yields s ts s') (hs : s.scopes.Sound cx)
    (hds : s.scopes.pop.1.Records ds) :
    s'.scopes.pop.1.Records (ds ++ body.flatMap Stmt.declarators) := by
  induction body generalizing s ds ts with
  | nil =>
    rw [stmts, yields_pure_iff] at h
    obtain ⟨-, rfl⟩ := h
    rwa [List.flatMap_nil, List.append_nil]
  | cons st body ih =>
    simp only [stmts, yields_bind_iff, yields_pure_iff] at h
    obtain ⟨t, s₁, ht, ts, _, hts, -, rfl⟩ := h
    have hsound := (ht.keeps (stmt_keeps cx st s) hs).sound hs
    have hrest := ih hts hsound (stmt_records ht hs hds)
    rwa [List.append_assoc, ← List.flatMap_cons] at hrest

end Context

/-! ## Typed declarators and those they come from -/

/-- `d.TypedAs t`: the typed declarator `t` is `d` with a type. -/
structure Declarator.TypedAs (d : Declarator) (t : TypedDeclarator) : Prop where
  name : t.name = d.name.name
  init : t.init = none ↔ d.init = none
  span : t.span = d.span.or d.name.span

/-- A declarator that is inferred is the same one with a type. -/
theorem DeclaratorRun.typedAs {cx : Context} {s s' : Scopes} {d : Declarator} {t : TypedDeclarator}
    (h : DeclaratorRun cx s d t s') : d.TypedAs t := by
  cases h <;> exact ⟨rfl, by simp, rfl⟩

/-- The declarators of a declaration are typed one by one. -/
theorem Thread.typedAs {cx : Context} {s s' : Scopes} {ds : List Declarator}
    {ts : List TypedDeclarator} (h : Thread (DeclaratorRun cx) s ds ts s') :
    List.Forall₂ Declarator.TypedAs ds ts := by
  induction h with
  | nil => exact .nil
  | cons hd _ ih => exact .cons hd.typedAs ih

/-- A statement keeps the declarators that it has itself. -/
theorem StmtRun.declarators_typedAs {cx : Context} {s s' : InferState} {st : Stmt} {t : TypedStmt}
    (h : StmtRun cx s st t s') : List.Forall₂ Declarator.TypedAs st.declarators t.declarators := by
  cases h with
  | declare hds => exact hds.typedAs
  | _ => exact .nil

/-- Statements keep the declarators that they have themselves. -/
theorem Thread.declarators_typedAs {cx : Context} {s s' : InferState} {body : List Stmt}
    {ts : List TypedStmt} (h : Thread (StmtRun cx) s body ts s') :
    List.Forall₂ Declarator.TypedAs (body.flatMap Stmt.declarators)
      (ts.flatMap TypedStmt.declarators) := by
  induction h with
  | nil => exact .nil
  | cons hst _ ih => exact List.rel_append hst.declarators_typedAs ih

/-! ## Settling -/

/-- Every element of the left list has one on the right that it is related to. -/
theorem exists_of_forall₂ {α β : Type} {R : α → β → Prop} {as : List α} {bs : List β}
    (h : List.Forall₂ R as bs) {a : α} (ha : a ∈ as) : ∃ b ∈ bs, R a b := by
  induction h with
  | nil => cases ha
  | cons hab _ ih =>
    rcases List.mem_cons.1 ha with rfl | ha
    · exact ⟨_, List.mem_cons_self, hab⟩
    · obtain ⟨b, hb, hab⟩ := ih ha
      exact ⟨b, List.mem_cons_of_mem _ hb, hab⟩

/-- Where the right list is cut, the left list is cut. -/
theorem forall₂_append_cons {α β : Type} {R : α → β → Prop} {as : List α} {before after : List β}
    {b : β} (h : List.Forall₂ R as (before ++ b :: after)) :
    ∃ before' a after', as = before' ++ a :: after' ∧ List.Forall₂ R before' before ∧ R a b := by
  have hbefore := List.forall₂_take_append as before (b :: after) h
  obtain ⟨a, after', hab, -, hdrop⟩ :=
    List.forall₂_cons_right_iff.1 (List.forall₂_drop_append as before (b :: after) h)
  refine ⟨as.take before.length, a, after', ?_, hbefore, hab⟩
  rw [← hdrop, List.take_append_drop]

/-- A check of the elements of a list fails at the first element that fails. -/
theorem exists_of_mapM_eq_error {ε α β : Type} {f : α → Except ε β} {as : List α} {e : ε}
    (h : as.mapM f = .error e) :
    ∃ before a after, as = before ++ a :: after ∧ (∀ b ∈ before, ∃ c, f b = .ok c) ∧
      f a = .error e := by
  induction as with
  | nil => cases h
  | cons a as ih =>
    rw [List.mapM_cons] at h
    cases ha : f a with
    | error e' =>
      rw [ha] at h
      cases h
      exact ⟨[], a, as, rfl, by simp, ha⟩
    | ok c =>
      cases has : as.mapM f with
      | ok cs =>
        rw [ha, has] at h
        cases h
      | error e' =>
        rw [ha, has] at h
        cases h
        obtain ⟨before, a', after, rfl, hbefore, ha'⟩ := ih has
        refine ⟨a :: before, a', after, rfl, ?_, ha'⟩
        intro b hb
        rcases List.mem_cons.1 hb with rfl | hb
        · exact ⟨c, ha⟩
        · exact hbefore b hb

namespace Context

/-- When a declarator does not settle. -/
theorem settleDeclarator_eq_error_iff {frame : Frame} {t : TypedDeclarator} {e : TypeError} :
    settleDeclarator frame t = .error e ↔
      t.init = none ∧ (frame.get? t.name).bind Binding.ty? = none ∧
        e = ⟨.untypedDeclaration t.name, t.span⟩ := by
  obtain ⟨name, init, ascription, span⟩ := t
  cases init with
  | some i => simp [settleDeclarator]
  | none =>
    cases hty : (frame.get? name).bind Binding.ty? with
    | some ty => simp [settleDeclarator, hty]
    | none => simp [settleDeclarator, hty, fault, eq_comm]

/-- Settling a statement settles the declarators that it has itself. -/
theorem settleStmt_declarators {frame : Frame} {t t' : TypedStmt}
    (h : settleStmt frame t = .ok t') :
    List.Forall₂ (fun d d' => settleDeclarator frame d = .ok d') t.declarators t'.declarators := by
  rcases settleStmt_eq_ok h with ⟨ds, ds', rfl, rfl, hds⟩ | ⟨rfl, hne⟩
  · exact mapM_eq_ok_iff.1 hds
  · cases t' with
    | declare ds => exact absurd rfl (hne ds)
    | _ => exact .nil

/-- Settling a block settles the declarators that its statements have themselves. -/
theorem settle_forall₂ {frame : Frame} {us ts : List TypedStmt} (h : settle frame us = .ok ts) :
    List.Forall₂ (fun d d' => settleDeclarator frame d = .ok d')
      (us.flatMap TypedStmt.declarators) (ts.flatMap TypedStmt.declarators) := by
  have hstmts := mapM_eq_ok_iff.1 h
  clear h
  induction hstmts with
  | nil => exact .nil
  | cons hst _ ih => exact List.rel_append (settleStmt_declarators hst) ih

/-- A statement that does not settle has a first declarator that does not. -/
theorem settleStmt_eq_error {frame : Frame} {t : TypedStmt} {e : TypeError}
    (h : settleStmt frame t = .error e) :
    ∃ before d after, t.declarators = before ++ d :: after ∧
      (∀ b ∈ before, ∃ b', settleDeclarator frame b = .ok b') ∧
      settleDeclarator frame d = .error e := by
  cases t with
  | declare ds =>
    apply exists_of_mapM_eq_error
    cases hds : ds.mapM (settleDeclarator frame) with
    | ok ds' =>
      rw [settleStmt, hds] at h
      cases h
    | error e' =>
      rw [settleStmt, hds] at h
      cases h
      rw [TypedStmt.declarators, hds]
  | _ => cases h

/-- A block that does not settle has a first declarator that does not. -/
theorem settle_eq_error {frame : Frame} {us : List TypedStmt} {e : TypeError}
    (h : settle frame us = .error e) :
    ∃ before d after, us.flatMap TypedStmt.declarators = before ++ d :: after ∧
      (∀ b ∈ before, ∃ b', settleDeclarator frame b = .ok b') ∧
      settleDeclarator frame d = .error e := by
  obtain ⟨stmts, u, rest, rfl, hstmts, hu⟩ := exists_of_mapM_eq_error h
  obtain ⟨before, d, after, hdeclarators, hbefore, hd⟩ := settleStmt_eq_error hu
  refine ⟨stmts.flatMap TypedStmt.declarators ++ before, d,
    after ++ rest.flatMap TypedStmt.declarators, ?_, ?_, hd⟩
  · simp [hdeclarators]
  · intro b hb
    rcases List.mem_append.1 hb with hb | hb
    · obtain ⟨t, ht, hb⟩ := List.mem_flatMap.1 hb
      obtain ⟨t', ht'⟩ := hstmts t ht
      obtain ⟨b', -, hb'⟩ := exists_of_forall₂ (settleStmt_declarators ht') hb
      exact ⟨b', hb'⟩
    · exact hbefore b hb

/-- A block whose statements succeed succeeds or fails as its declarations settle. -/
theorem outcome_inBlock {m : Infer (List TypedStmt)} {s inside : InferState}
    {result : Except TypeError (List TypedStmt)}
    (h : m.outcome { s with scopes := s.scopes.push } = (result, inside)) :
    (inBlock m).outcome s =
      (result.bind (settle inside.scopes.pop.1),
        { inside with scopes := inside.scopes.pop.2 }) := by
  unfold Infer.outcome inBlock
  unfold Infer.outcome at h
  rw [h]

end Context

/-! ## Blocks -/

/-- `d.SettledIn frame t`: the typed declarator `t` is `d`, and if `d` has no initializer it has the
type of the name in the frame, and no value. -/
structure Declarator.SettledIn (frame : Frame) (d : Declarator) (t : TypedDeclarator) : Prop extends
    d.TypedAs t where
  ascription : d.init = none →
    ∃ ty, (frame.get? d.name.name).bind Binding.ty? = some ty ∧ t.ascription = .ofTy ty

/-- A typed declarator that settles has the type of its name. -/
theorem Declarator.TypedAs.settledIn {frame : Frame} {d : Declarator} {u t : TypedDeclarator}
    (h : d.TypedAs u) (ht : Context.settleDeclarator frame u = .ok t) : d.SettledIn frame t := by
  obtain ⟨heq, -, hnone⟩ := Context.settleDeclarator_eq_ok ht
  have htyped : d.TypedAs t := by
    rw [heq]
    exact ⟨h.name, h.init, h.span⟩
  refine ⟨htyped, ?_⟩
  intro hinit
  obtain ⟨hvalue, hty⟩ := hnone (h.init.2 hinit)
  rw [h.name] at hty
  refine ⟨t.ascription.ty, hty, ?_⟩
  rw [Ascription.ofTy, ← hvalue]

/-- A declarator that has settled is not pending. -/
theorem Declarator.SettledIn.ne_pending {frame : Frame} {d : Declarator} {t : TypedDeclarator}
    (h : d.SettledIn frame t) (hinit : d.init = none) :
    frame.get? d.name.name ≠ some .pending := by
  intro hpending
  obtain ⟨ty, hty, -⟩ := h.ascription hinit
  rw [hpending] at hty
  cases hty

/-- Typed declarators that settle have the types of their names, one by one. -/
theorem Declarator.forall₂_settledIn {frame : Frame} {ds : List Declarator}
    {us ts : List TypedDeclarator} (h : List.Forall₂ TypedAs ds us)
    (hts : List.Forall₂ (fun u t => Context.settleDeclarator frame u = .ok t) us ts) :
    List.Forall₂ (SettledIn frame) ds ts := by
  induction h generalizing ts with
  | nil =>
    cases hts
    exact .nil
  | cons hd _ ih =>
    cases hts with
    | cons ht hrest => exact .cons (hd.settledIn ht) (ih hrest)

namespace Frame.Records

variable {frame : Frame} {ds : List Declarator}

/-- A declarator without a type in the frame it was recorded in is pending there. -/
theorem eq_pending (h : frame.Records ds) {d : Declarator} (hd : d ∈ ds)
    (hty : (frame.get? d.name.name).bind Binding.ty? = none) :
    frame.get? d.name.name = some .pending := by
  obtain ⟨b, hb⟩ := Option.isSome_iff_exists.1 (h.bound d hd)
  rw [hb] at hty ⊢
  cases b with
  | pending => rfl
  | _ => cases hty

/-- When all declarators have settled in the frame that records them, nothing in it is pending. -/
theorem ne_pending (h : frame.Records ds) {ts : List TypedDeclarator}
    (hts : List.Forall₂ (Declarator.SettledIn frame) ds ts) (name : String) :
    frame.get? name ≠ some .pending := by
  intro hpending
  obtain ⟨d, hd, hinit, rfl⟩ := h.pending name hpending
  obtain ⟨t, -, ht⟩ := exists_of_forall₂ hts hd
  exact ht.ne_pending hinit hpending

/-- When the typed declarators of a block do not settle in the frame that records them, the first of
them that is pending is the one to blame. -/
theorem first_pending (h : frame.Records ds) {us : List TypedStmt} {e : TypeError}
    (hus : List.Forall₂ Declarator.TypedAs ds (us.flatMap TypedStmt.declarators))
    (he : Context.settle frame us = .error e) :
    ∃ before d after, ds = before ++ d :: after ∧ d.init = none ∧
      frame.get? d.name.name = some .pending ∧
      (∀ b ∈ before, b.init = none → frame.get? b.name.name ≠ some .pending) ∧
      e = ⟨.untypedDeclaration d.name.name, d.span.or d.name.span⟩ := by
  obtain ⟨settled, u, rest, hsplit, hsettled, hu⟩ := Context.settle_eq_error he
  rw [hsplit] at hus
  obtain ⟨before, d, after, rfl, hbefore, hd⟩ := forall₂_append_cons hus
  obtain ⟨hinit, hty, rfl⟩ := Context.settleDeclarator_eq_error_iff.1 hu
  rw [hd.name] at hty
  refine ⟨before, d, after, rfl, hd.init.1 hinit, h.eq_pending (by simp) hty, ?_, ?_⟩
  · intro b hb hbinit
    obtain ⟨v, hv, hbv⟩ := exists_of_forall₂ hbefore hb
    obtain ⟨t, ht⟩ := hsettled v hv
    exact (hbv.settledIn ht).ne_pending hbinit
  · rw [hd.name, hd.span]

end Frame.Records

namespace Function

open Context

variable {f : Function} {injections : Injections} {registry : Registry} {s inside : InferState}
  {frame : Frame} {result : Except TypeError (List TypedStmt)}

/-- Wherever inference is and whatever list of statements comes next as a block: let `frame` be the
frame of its scope after its statements.

If the block succeeds, nothing in the frame is pending, and the declarators that the list has itself
are those of the result, where one without initializer has the type of its name in the frame, and no
value.  If the statements succeed and the block does not, it fails with the first declarator without
initializer whose name is pending in the frame.  And it succeeds when the statements do and nothing
is pending. -/
theorem blocks_settle (hs : f.Reaches injections registry s) (body : List Stmt)
    (hrun : ((f.context injections registry).stmts body).outcome
      { s with scopes := s.scopes.push } = (result, inside))
    (hframe : inside.scopes.pop.1 = frame) :
    (∀ typed, ((inBlock ((f.context injections registry).stmts body)).outcome s).1 = .ok typed →
      (∀ name, frame.get? name ≠ some .pending) ∧
      List.Forall₂ (Declarator.SettledIn frame) (body.flatMap Stmt.declarators)
        (typed.flatMap TypedStmt.declarators)) ∧
    (∀ us e, result = .ok us →
      ((inBlock ((f.context injections registry).stmts body)).outcome s).1 = .error e →
      ∃ before d after, body.flatMap Stmt.declarators = before ++ d :: after ∧ d.init = none ∧
        frame.get? d.name.name = some .pending ∧
        (∀ b ∈ before, b.init = none → frame.get? b.name.name ≠ some .pending) ∧
        e = ⟨.untypedDeclaration d.name.name, d.span.or d.name.span⟩) ∧
    (∀ us, result = .ok us → (∀ name, frame.get? name ≠ some .pending) →
      ∃ typed, ((inBlock ((f.context injections registry).stmts body)).outcome s).1 =
        .ok typed) := by
  subst hframe
  rw [outcome_inBlock hrun]
  cases result with
  | error e => simp [Except.bind]
  | ok us =>
    have hyields : ((f.context injections registry).stmts body).Yields
        { s with scopes := s.scopes.push } us inside := hrun
    have hrecords : inside.scopes.pop.1.Records (body.flatMap Stmt.declarators) :=
      stmts_record hyields hs.sound.push .empty
    have htyped := (stmts_derive _ body hyields).declarators_typedAs
    refine ⟨?_, ?_, ?_⟩
    · intro typed h
      have hsettled := Declarator.forall₂_settledIn htyped (settle_forall₂ h)
      exact ⟨hrecords.ne_pending hsettled, hsettled⟩
    · intro _ e _ h
      exact hrecords.first_pending htyped h
    · intro _ _ hnone
      cases h : settle inside.scopes.pop.1 us with
      | ok typed => exact ⟨typed, h⟩
      | error e =>
        obtain ⟨_, d, _, -, -, hpending, -⟩ := hrecords.first_pending htyped h
        exact absurd hpending (hnone _)

end Function

namespace Sample

/-- The state in which the inference of the sample function comes to its body. -/
def entry : InferState := ⟨Function.bodyScopes [(⟨"env", none⟩, .ofTy (.object .record))], []⟩

/-- The statements of a list, in a scope that is opened at the entry. -/
def runAtEntry (body : List Stmt) : Except TypeError (List TypedStmt) × InferState :=
  ((shade.context injections ⟨[]⟩).stmts body).outcome { entry with scopes := entry.scopes.push }

/-- `var a = true, c; var b; c = a;` -/
def halfSet : List Stmt := [
  .declare [⟨⟨"a", none⟩, some (.literal ⟨some (.bool true), none⟩ none), none⟩,
    ⟨⟨"c", none⟩, none, none⟩] none,
  .declare [⟨⟨"b", none⟩, none, none⟩] none,
  .expr (.assign .plain (.ident "c" none) (.ident "a" none) none) none]

/-- The body of the sample function settles, with nothing pending in its frame.  Where one of two
variables is never assigned, the block fails with that one, although the other comes first. -/
theorem blocks_of_shade_settle :
    shade.Reaches injections ⟨[]⟩ entry ∧
    ((Context.inBlock ((shade.context injections ⟨[]⟩).stmts shade.body)).outcome entry).1 =
      .ok typedShade.body ∧
    (∀ name, (runAtEntry shade.body).2.scopes.pop.1.get? name ≠ some .pending) ∧
    ((Context.inBlock ((shade.context injections ⟨[]⟩).stmts halfSet)).outcome entry).1 =
      .error ⟨.untypedDeclaration "b", none⟩ ∧
    ∃ before d after, halfSet.flatMap Stmt.declarators = before ++ d :: after ∧
      d.name.name = "b" ∧
      (runAtEntry halfSet).2.scopes.pop.1.get? d.name.name = some .pending := by
  have hreaches : shade.Reaches injections ⟨[]⟩ entry := .start rfl
  have hbody : ((Context.inBlock ((shade.context injections ⟨[]⟩).stmts shade.body)).outcome
      entry).1 = .ok typedShade.body := rfl
  have hhalf : ((Context.inBlock ((shade.context injections ⟨[]⟩).stmts halfSet)).outcome
      entry).1 = .error ⟨.untypedDeclaration "b", none⟩ := rfl
  obtain ⟨hsettled, -, -⟩ :=
    Function.blocks_settle hreaches shade.body (Prod.eta (runAtEntry shade.body)).symm rfl
  obtain ⟨-, hblamed, -⟩ :=
    Function.blocks_settle hreaches halfSet (Prod.eta (runAtEntry halfSet)).symm rfl
  obtain ⟨before, d, after, hsplit, -, hpending, -, heq⟩ := hblamed _ _ rfl hhalf
  refine ⟨hreaches, hbody, (hsettled _ hbody).1, hhalf, before, d, after, hsplit, ?_, hpending⟩
  injection heq with hfault
  injection hfault with hname
  exact hname.symm

end Sample

end Shader
