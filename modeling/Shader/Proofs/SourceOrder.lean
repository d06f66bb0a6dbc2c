import Shader.Proofs.Erasure
import Shader.Proofs.WellTyped

/-!
# Expressions in source order

`TypedFunction.exprs` lists the expressions of an inferred function.  That nothing is missing and
nothing is out of order is said in terms of the source: a phrase of a function has a *place*, the
way to it from the body, as numbers of parts counted from the left.  In the lexicographic order of
places a phrase comes before its parts, and its parts come from left to right.

`Phrase.listing` lists the expressions of a phrase by place, and inference takes it to the list of
typed expressions, entry by entry: `Function.exprs_in_source_order`.
-/

namespace Shader

/-! ## Phrases and their places -/

/-- A phrase of a function.  The name behind `new` is a phrase of its own and no expression. -/
inductive Phrase where
  | expr (e : Expr)
  | stmt (s : Stmt)
  | constructorName (name : String) (span : Option Span)

/-- The parts of an expression, from left to right. -/
def Expr.parts : Expr → List Phrase
  | .literal _ _ | .ident _ _ | .unsupported _ _ => []
  | .member object _ _ => [.expr object]
  | .index object i _ => [.expr object, .expr i]
  | .call callee args _ => .expr callee :: args.map .expr
  | .construct (.ident name nameSpan) args _ => .constructorName name nameSpan :: args.map .expr
  | .construct callee args _ => .expr callee :: args.map .expr
  | .binary _ left right _ => [.expr left, .expr right]
  | .logical _ left right _ => [.expr left, .expr right]
  | .assign _ target value _ => [.expr target, .expr value]
  | .conditional test consequent alternate _ => [.expr test, .expr consequent, .expr alternate]
  | .unary _ argument _ => [.expr argument]

/-- The parts of a statement, from left to right.  Of a declaration these are the initializers. -/
def Stmt.parts : Stmt → List Phrase
  | .declare ds _ => (ds.filterMap Declarator.init).map .expr
  | .expr e _ => [.expr e]
  | .ret value _ => value.toList.map .expr
  | .branch test consequent alternate _ =>
    .expr test :: .stmt consequent :: alternate.toList.map .stmt
  | .block body _ => body.map .stmt
  | .unsupported _ _ => []

namespace Phrase

/-- The parts of a phrase, from left to right. -/
def parts : Phrase → List Phrase
  | .expr e => e.parts
  | .stmt s => s.parts
  | .constructorName _ _ => []

/-- The phrase at a place. -/
def at? (x : Phrase) : List Nat → Option Phrase
  | [] => some x
  | i :: place => x.parts[i]?.bind fun y => y.at? place

/-- The expression that a phrase is, if it is one. -/
def own : Phrase → List Expr
  | .expr e => [e]
  | _ => []

/-- Expressions of a list are not larger than the list. -/
theorem sizeOf_le_of_mem_map_expr {es : List Expr} : ∀ y ∈ es.map expr, sizeOf y ≤ sizeOf es := by
  rw [List.forall_mem_map]
  intro e he
  have hlt : sizeOf e < sizeOf es := List.sizeOf_lt_of_mem he
  rw [expr.sizeOf_spec]
  omega

/-- The parts of an expression are smaller than it. -/
theorem sizeOf_lt_of_mem_exprParts (e : Expr) : ∀ y ∈ e.parts, sizeOf y < sizeOf (expr e) := by
  have happlied : ∀ {x : Phrase} {args : List Expr} {n : Nat}, sizeOf x + sizeOf args < n →
      ∀ y ∈ x :: args.map expr, sizeOf y < n := by
    intro x args n hn y hy
    rcases List.mem_cons.1 hy with rfl | hy
    · omega
    · have hle := sizeOf_le_of_mem_map_expr y hy
      omega
  cases e with
  | call callee args span =>
    apply happlied
    simp
    omega
  | construct callee args span =>
    cases callee with
    | ident name nameSpan =>
      apply happlied
      simp
      omega
    | _ =>
      apply happlied
      simp
      omega
  | _ => simp [Expr.parts] <;> omega

/-- The parts of a statement are smaller than it. -/
theorem sizeOf_lt_of_mem_stmtParts (s : Stmt) : ∀ y ∈ s.parts, sizeOf y < sizeOf (stmt s) := by
  cases s with
  | declare ds span =>
    rw [Stmt.parts, List.forall_mem_map]
    intro e he
    obtain ⟨d, hd, hinit⟩ := List.mem_filterMap.1 he
    have hdecl : sizeOf d < sizeOf ds := List.sizeOf_lt_of_mem hd
    obtain ⟨name, init, declSpan⟩ := d
    obtain rfl := hinit
    simp at hdecl ⊢
    omega
  | branch test consequent alternate span =>
    cases alternate <;> simp [Stmt.parts] <;> omega
  | block body span =>
    rw [Stmt.parts, List.forall_mem_map]
    intro s hs
    have hlt : sizeOf s < sizeOf body := List.sizeOf_lt_of_mem hs
    simp
    omega
  | ret value span =>
    cases value with
    | none => simp [Stmt.parts]
    | some e =>
      simp [Stmt.parts]
      omega
  | _ => simp [Stmt.parts] <;> omega

/-- The parts of a phrase are smaller than it. -/
theorem sizeOf_lt_of_mem_parts {x y : Phrase} (h : y ∈ x.parts) : sizeOf y < sizeOf x := by
  cases x with
  | expr e => exact sizeOf_lt_of_mem_exprParts e y h
  | stmt s => exact sizeOf_lt_of_mem_stmtParts s y h
  | constructorName name span => cases h

/-- The expressions of a phrase with their places, each before its parts. -/
def listing (x : Phrase) : List (List Nat × Expr) :=
  x.own.map (fun e => ([], e)) ++ (List.finRange x.parts.length).flatMap fun i =>
    (x.parts.get i).listing.map fun entry => (i.val :: entry.1, entry.2)
termination_by sizeOf x
decreasing_by exact sizeOf_lt_of_mem_parts (List.get_mem _ _)

/-- Something holds of all phrases when it holds of a phrase whose parts it holds of. -/
theorem induct {motive : Phrase → Prop} (h : ∀ x, (∀ y ∈ x.parts, motive y) → motive x)
    (x : Phrase) : motive x :=
  h x fun y _ => induct h y
termination_by sizeOf x
decreasing_by exact sizeOf_lt_of_mem_parts (by assumption)

/-- The listing has every expression, at its place. -/
theorem mem_listing_iff {x : Phrase} {place : List Nat} {e : Expr} :
    (place, e) ∈ x.listing ↔ x.at? place = some (.expr e) := by
  induction x using induct generalizing place with
  | h x ih =>
    rw [listing, List.mem_append, List.mem_flatMap]
    cases place with
    | nil =>
      rw [at?, Option.some_inj]
      cases x <;> simp [own, eq_comm]
    | cons i place =>
      have hown : (i :: place, e) ∉ x.own.map fun e => (([] : List Nat), e) := by simp
      rw [at?, Option.bind_eq_some_iff, or_iff_right hown]
      constructor
      · rintro ⟨j, -, hj⟩
        obtain ⟨⟨place', e'⟩, hmem, heq⟩ := List.mem_map.1 hj
        obtain ⟨hi, rfl⟩ := Prod.mk.inj heq
        obtain ⟨rfl, rfl⟩ := List.cons.inj hi
        have hget : x.parts[j.val]? = some (x.parts.get j) := List.getElem?_eq_getElem j.isLt
        exact ⟨_, hget, (ih _ (List.get_mem _ _)).1 hmem⟩
      · rintro ⟨y, hy, hat⟩
        obtain ⟨hi, rfl⟩ := List.getElem?_eq_some_iff.1 hy
        refine ⟨⟨i, hi⟩, List.mem_finRange _, List.mem_map.2 ⟨(place, e), ?_, rfl⟩⟩
        exact (ih _ (List.getElem_mem hi)).2 hat

/-- The listing goes by place. -/
theorem pairwise_listing (x : Phrase) : x.listing.Pairwise fun a b => a.1 < b.1 := by
  induction x using induct with
  | h x ih =>
    rw [listing, List.pairwise_append, List.pairwise_flatMap]
    refine ⟨?_, ⟨?_, ?_⟩, ?_⟩
    · cases x <;> simp [own]
    · intro i _
      rw [List.pairwise_map]
      refine (ih _ (List.get_mem _ _)).imp fun {a b} hab => ?_
      exact List.cons_lt_cons_iff.2 (.inr ⟨rfl, hab⟩)
    · refine (List.pairwise_lt_finRange _).imp fun {i j} hij => ?_
      simp only [List.forall_mem_map]
      intro a _ b _
      exact List.cons_lt_cons_iff.2 (.inl hij)
    · intro a ha b hb
      obtain ⟨e, -, rfl⟩ := List.mem_map.1 ha
      obtain ⟨i, -, hb⟩ := List.mem_flatMap.1 hb
      obtain ⟨entry, -, rfl⟩ := List.mem_map.1 hb
      exact List.nil_lt_cons _ _

/-- The expressions of a phrase, each before its parts. -/
def preorder (x : Phrase) : List Expr := x.listing.map Prod.snd

/-- A phrase is listed before its parts, and these from left to right. -/
theorem preorder_eq (x : Phrase) : x.preorder = x.own ++ x.parts.flatMap preorder := by
  have hparts : x.parts.flatMap preorder =
      (List.finRange x.parts.length).flatMap fun i => (x.parts.get i).preorder := by
    conv_lhs => rw [← List.map_get_finRange x.parts]
    rw [List.flatMap_map]
  have hown : (x.own.map fun e => (([] : List Nat), e)).map Prod.snd = x.own := by
    rw [List.map_map]
    exact List.map_id _
  rw [preorder, listing, List.map_append, List.map_flatMap, hown, hparts]
  refine congrArg (x.own ++ ·) (List.flatMap_congr fun i _ => ?_)
  rw [List.map_map]
  rfl

end Phrase

/-! ## Typed expressions and phrases -/

/-- `Annotates t e`: the typed expression is the expression with annotations. -/
structure Annotates (t : TypedExpr) (e : Expr) : Prop where
  erase : t.erase = e.normalize
  kindName : t.kindName = e.kindName
  span : t.span = e.span

/-- What annotates the normal form of an expression is of its kind and has its span. -/
theorem Annotates.of_erase {t : TypedExpr} {e : Expr} (h : t.erase = e.normalize) :
    Annotates t e := by
  have herase : t.erase.kindName = t.kindName ∧ t.erase.span = t.span := by
    cases t <;> exact ⟨rfl, rfl⟩
  have hnormalize : e.normalize.kindName = e.kindName ∧ e.normalize.span = e.span := by
    cases e <;> exact ⟨rfl, rfl⟩
  refine ⟨h, ?_, ?_⟩
  · rw [← herase.1, h, hnormalize.1]
  · rw [← herase.2, h, hnormalize.2]

/-- `Lists ts xs`: the typed expressions annotate the expressions of the phrases, in order. -/
def Lists (ts : List TypedExpr) (xs : List Phrase) : Prop :=
  List.Forall₂ Annotates ts (xs.flatMap Phrase.preorder)

namespace Lists

variable {ts us : List TypedExpr} {xs ys : List Phrase}

theorem nil : Lists [] [] := List.Forall₂.nil

theorem append (h : Lists ts xs) (h' : Lists us ys) : Lists (ts ++ us) (xs ++ ys) := by
  unfold Lists
  rw [List.flatMap_append]
  exact List.rel_append h h'

/-- An expression is listed before its parts. -/
theorem expr {t : TypedExpr} {e : Expr} (h : t.erase = e.normalize) (hparts : Lists ts e.parts) :
    Lists (t :: ts) [.expr e] := by
  unfold Lists
  rw [List.flatMap_singleton, Phrase.preorder_eq]
  exact .cons (.of_erase h) hparts

/-- What is listed after an expression are its parts. -/
theorem parts {t : TypedExpr} {e : Expr} (h : Lists (t :: ts) [.expr e]) : Lists ts e.parts := by
  unfold Lists at h
  rw [List.flatMap_singleton, Phrase.preorder_eq] at h
  exact (List.forall₂_cons.1 h).2

/-- Of a statement its parts are listed. -/
theorem stmt {s : Stmt} (hparts : Lists ts s.parts) : Lists ts [.stmt s] := by
  unfold Lists
  rw [List.flatMap_singleton, Phrase.preorder_eq]
  exact hparts

/-- The name of a constructor is not listed. -/
theorem constructorName (name : String) (span : Option Span) :
    Lists [] [.constructorName name span] := by
  unfold Lists
  rw [List.flatMap_singleton, Phrase.preorder_eq]
  exact .nil

/-- A branch is listed by its statements. -/
theorem branchBody {s : Stmt} (h : Lists ts (s.branchBody.map .stmt)) : Lists ts [.stmt s] := by
  cases s with
  | block body span => exact .stmt h
  | _ => exact h

end Lists

theorem Thread.listsArgs {S : Type} {s s' : S} {es : List Expr} {ts : List TypedExpr}
    (h : Thread (fun _ e t _ => Lists t.all [.expr e]) s es ts s') :
    Lists (TypedExpr.allArgs ts) (es.map .expr) := by
  induction h with
  | nil => exact .nil
  | cons ht _ ih => exact ht.append ih

/-- The typed form of an expression lists it and its parts. -/
theorem ExprRun.lists {cx : Context} {s s' : Scopes} {e : Expr} {t : TypedExpr}
    (h : ExprRun cx s e t s') : Lists t.all [.expr e] := by
  induction h using ExprRun.induct with
  | literal => exact .expr rfl .nil
  | ident _ => exact .expr rfl .nil
  | member ho ha ih => exact .expr (ExprRun.member ho ha).erase.1 ih
  | call hc hsignature has hargs ihc ihargs =>
    have harguments := (ihargs.mono fun ⟨_, h⟩ => h).listsArgs
    exact .expr (ExprRun.call hc hsignature has hargs).erase.1 (ihc.append harguments)
  | construct hentry has hargs ihargs =>
    have harguments := (ihargs.mono fun ⟨_, h⟩ => h).listsArgs
    refine .expr (ExprRun.construct hentry has hargs).erase.1 ?_
    exact (Lists.constructorName _ _).append harguments
  | binary hl hr ha ihl ihr => exact .expr (ExprRun.binary hl hr ha).erase.1 (ihl.append ihr)
  | logical hl hr hty ihl ihr => exact .expr (ExprRun.logical hl hr hty).erase.1 (ihl.append ihr)
  | @assignIdent _ _ _ _ name targetSpan _ _ _ target _ hv ha ihv =>
    have htarget :
        Lists [.ident name ⟨.ofTy target, targetSpan⟩] [.expr (.ident name targetSpan)] :=
      .expr rfl .nil
    exact .expr (ExprRun.assignIdent hv ha).erase.1 (htarget.append ihv)
  | @assignMember _ _ _ _ object property targetSpan _ _ _ t _ hv ht hty ihv iht =>
    -- Forgetting the value of the target changes none of its parts.
    have htarget : Lists t.forgetValue.all [.expr (.member object property targetSpan)] := by
      have herase := ht.erase.1
      rw [← TypedExpr.erase_forgetValue] at herase
      cases ht with
      | member ho ha => exact .expr herase iht.parts
    exact .expr (ExprRun.assignMember hv ht hty).erase.1 (htarget.append ihv)
  | conditional ht hc ha hty iht ihc iha =>
    refine .expr (ExprRun.conditional ht hc ha hty).erase.1 ?_
    exact iht.append (ihc.append iha)
  | unary ht ha ih => exact .expr (ExprRun.unary ht ha).erase.1 ih

theorem Thread.listsDeclarators {cx : Context} {s s' : Scopes} {ds : List Declarator}
    {ts : List TypedDeclarator} (h : Thread (DeclaratorRun cx) s ds ts s') :
    Lists (ts.flatMap fun d => (d.init.map TypedExpr.all).getD [])
      ((ds.filterMap Declarator.init).map .expr) := by
  induction h with
  | nil => exact .nil
  | cons hd _ ih =>
    cases hd with
    | init he => exact he.lists.append ih
    | injected _ => exact ih
    | pending _ => exact ih

theorem Thread.lists {S : Type} {s s' : S} {body : List Stmt} {ts : List TypedStmt}
    (h : Thread (fun _ st t _ => Lists t.exprs [.stmt st]) s body ts s') :
    Lists (TypedStmt.exprsAll ts) (body.map .stmt) := by
  induction h with
  | nil => exact .nil
  | cons hst _ ih => exact hst.append ih

/-- A block lists its statements, as settling changes no expression. -/
theorem BlockRun.lists {s s' : InferState} {body : List Stmt} {typed : List TypedStmt}
    (h : BlockRun (fun _ st t _ => Lists t.exprs [.stmt st]) s body typed s') :
    Lists (TypedStmt.exprsAll typed) (body.map .stmt) := by
  obtain ⟨unsettled, inside, hthread, hsettle, rfl⟩ := h
  rw [(Context.settle_exprsAll hsettle).1]
  exact hthread.lists

/-- The typed form of a statement lists its expressions. -/
theorem StmtRun.lists {cx : Context} {s s' : InferState} {st : Stmt} {t : TypedStmt}
    (h : StmtRun cx s st t s') : Lists t.exprs [.stmt st] := by
  induction h using StmtRun.induct with
  | declare hds => exact .stmt hds.listsDeclarators
  | expr he => exact .stmt he.lists
  | retNone => exact .stmt .nil
  | retSome he => exact .stmt he.lists
  | branch ht _ _ ihc =>
    have hc := (ihc.mono fun ⟨_, h⟩ => h).lists.branchBody
    exact .stmt (ht.lists.append hc)
  | branchElse ht _ _ _ _ ihc iha =>
    have hc := (ihc.mono fun ⟨_, h⟩ => h).lists.branchBody
    have ha := (iha.mono fun ⟨_, h⟩ => h).lists.branchBody
    exact .stmt (ht.lists.append (hc.append ha))
  | block _ _ ih => exact .stmt (ih.mono fun ⟨_, h⟩ => h).lists

/-! ## Functions -/

namespace Function

/-- The phrase at a place of a function. -/
def phraseAt? (f : Function) (place : List Nat) : Option Phrase :=
  (Phrase.stmt (.block f.body none)).at? place

/-- The typed expressions of a function are those of its body, entry by entry and in source order:
`places` are the places of all expressions, in the order of a tree walk. -/
theorem exprs_in_source_order {f : Function} {injections : Injections} {registry : Registry}
    {t : TypedFunction} (h : f.infer injections registry = .ok t) :
    ∃ places : List (List Nat), places.Pairwise (· < ·) ∧
      (∀ place, place ∈ places ↔ ∃ e, f.phraseAt? place = some (.expr e)) ∧
      List.Forall₂ (fun place te => ∃ e, f.phraseAt? place = some (.expr e) ∧ Annotates te e)
        places t.exprs := by
  obtain ⟨-, hbody, -⟩ := Function.infer_derives h
  have hlists : Lists (TypedStmt.exprsAll _) [.stmt (.block f.body none)] :=
    .stmt (hbody.mono StmtRun.lists).lists
  unfold Lists at hlists
  rw [List.flatMap_singleton] at hlists
  have hentries : List.Forall₂ (fun te (entry : List Nat × Expr) => Annotates te entry.2) _ _ :=
    List.forall₂_map_right_iff.1 hlists
  obtain ⟨hlength, hzip⟩ := List.forall₂_iff_zip.1 hentries.flip
  refine ⟨(Phrase.stmt (.block f.body none)).listing.map Prod.fst, ?_, ?_, ?_⟩
  · rw [List.pairwise_map]
    exact Phrase.pairwise_listing _
  · intro place
    unfold phraseAt?
    simp [List.mem_map, Phrase.mem_listing_iff]
  · rw [List.forall₂_map_left_iff, List.forall₂_iff_zip]
    refine ⟨hlength, fun {entry te} hmem => ?_⟩
    exact ⟨entry.2, Phrase.mem_listing_iff.1 (List.of_mem_zip hmem).1, hzip hmem⟩

end Function

namespace Sample

/-- The expressions of a function with a constructor, a call and an assignment in source order. -/
theorem lit_in_source_order : ∃ t, lit.infer numbers registry = .ok t ∧
    ∃ places : List (List Nat), places.Pairwise (· < ·) ∧
      (∀ place, place ∈ places ↔ ∃ e, lit.phraseAt? place = some (.expr e)) ∧
      List.Forall₂ (fun place te => ∃ e, lit.phraseAt? place = some (.expr e) ∧ Annotates te e)
        places t.exprs := by
  obtain ⟨t, h⟩ : ∃ t, lit.infer numbers registry = .ok t := ⟨_, rfl⟩
  exact ⟨t, h, Function.exprs_in_source_order h⟩

/-- The name behind `new` stands before the arguments and is not listed. -/
example :
    lit.phraseAt? [0, 0] =
      some (.expr (Bare.construct "Color" [Bare.ident "n", Bare.ident "k"])) ∧
    lit.phraseAt? [0, 0, 0] = some (.constructorName "Color" none) ∧
    lit.phraseAt? [0, 0, 1] = some (.expr (Bare.ident "n")) := ⟨rfl, rfl, rfl⟩

end Sample

end Shader
