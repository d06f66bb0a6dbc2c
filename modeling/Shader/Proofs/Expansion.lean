import Shader.Proofs.Balance
import Shader.Proofs.Judgement
import Shader.Syntax.Bare

/-!
# Compound assignments and their expansions

`target op= value` and `target = target op value` go through inference in different orders: the
first one infers the value and then writes the target, the second one reads the target, infers the
value and then writes the target.  They are typed alike as long as the value assigns nothing.

An expression without assignments leaves the scopes as they are (`ExprRun.scopes_eq`), so both forms
write the target in the state that they start in.  There a compound assignment to a name or member
succeeds exactly when the target can be read, combines with the value, and takes the combination
(`Context.assignIdent_compound_iff`, `assignedTy_compound_iff`).
-/

namespace Shader

/-! ## Expressions without assignments -/

namespace Expr

mutual

/-- Whether there is an assignment in an expression. -/
def assigns : Expr → Bool
  | .literal _ _ | .ident _ _ | .unsupported _ _ => false
  | .member object _ _ => object.assigns
  | .index object position _ => object.assigns || position.assigns
  | .call callee args _ | .construct callee args _ => callee.assigns || anyAssigns args
  | .binary _ left right _ | .logical _ left right _ => left.assigns || right.assigns
  | .assign _ _ _ _ => true
  | .conditional test consequent alternate _ =>
    test.assigns || consequent.assigns || alternate.assigns
  | .unary _ argument _ => argument.assigns

/-- Whether there is an assignment in one of the expressions. -/
def anyAssigns : List Expr → Bool
  | [] => false
  | e :: rest => e.assigns || anyAssigns rest

end

/-- There is no assignment in a path. -/
theorem assigns_of_path? {e : Expr} {path : String} (h : e.path? = some path) :
    e.assigns = false := by
  fun_induction path? e generalizing path with
  | case1 => rw [assigns]
  | case2 object property span ih =>
    obtain ⟨root, hroot, -⟩ := Option.map_eq_some_iff.1 h
    rw [assigns]
    exact ih hroot
  | case3 => cases h

/-- There is no assignment in an operation on a path when there is none in the other operand. -/
theorem assigns_operation {op : BinaryOp} {target value : Expr} {path : String}
    {span : Option Span} (htarget : target.path? = some path) (hvalue : value.assigns = false) :
    (binary op target value span).assigns = false := by
  rw [assigns, assigns_of_path? htarget, hvalue]
  rfl

end Expr

/-- Arguments without assignments leave the scopes as they are when each of them does. -/
theorem Thread.scopes_eq {es : List Expr} {ts : List TypedExpr} {s s' : Scopes}
    (h : Thread (fun s e _ s' => e.assigns = false → s' = s) s es ts s')
    (hes : Expr.anyAssigns es = false) : s' = s := by
  induction h with
  | nil => rfl
  | cons he _ ih =>
    rw [Expr.anyAssigns, Bool.or_eq_false_iff] at hes
    rw [ih hes.2, he hes.1]

/-- An expression without assignments leaves the scopes as they are. -/
theorem ExprRun.scopes_eq {cx : Context} {s s' : Scopes} {e : Expr} {t : TypedExpr}
    (h : ExprRun cx s e t s') (he : e.assigns = false) : s' = s := by
  induction h using ExprRun.induct with
  | literal => rfl
  | ident => rfl
  | member _ _ ih =>
    rw [Expr.assigns] at he
    exact ih he
  | call _ _ _ _ ihc ihs =>
    rw [Expr.assigns, Bool.or_eq_false_iff] at he
    rw [(ihs.mono fun h => h.2).scopes_eq he.2, ihc he.1]
  | construct _ _ _ ihs =>
    rw [Expr.assigns, Bool.or_eq_false_iff] at he
    exact (ihs.mono fun h => h.2).scopes_eq he.2
  | binary _ _ _ ihl ihr =>
    rw [Expr.assigns, Bool.or_eq_false_iff] at he
    rw [ihr he.2, ihl he.1]
  | logical _ _ _ ihl ihr =>
    rw [Expr.assigns, Bool.or_eq_false_iff] at he
    rw [ihr he.2, ihl he.1]
  | assignIdent => rw [Expr.assigns] at he; cases he
  | assignMember => rw [Expr.assigns] at he; cases he
  | conditional _ _ _ _ iht ihc iha =>
    rw [Expr.assigns, Bool.or_eq_false_iff, Bool.or_eq_false_iff] at he
    rw [iha he.2, ihc he.1.2, iht he.1.1]
  | unary _ _ ih =>
    rw [Expr.assigns] at he
    exact ih he

/-- A step has one outcome. -/
theorem Infer.Yields.unique {α : Type} {m : Infer α} {s s₁ s₂ : InferState} {a₁ a₂ : α}
    (h₁ : m.Yields s a₁ s₁) (h₂ : m.Yields s a₂ s₂) : a₁ = a₂ ∧ s₁ = s₂ := by
  have heq := Prod.mk.inj (h₁.symm.trans h₂)
  exact ⟨Except.ok.inj heq.1, heq.2⟩

/-- Inferring an expression without assignments does not change the state. -/
theorem Context.expr_still {cx : Context} {s s' : InferState} {e : Expr} {t : TypedExpr}
    (h : (cx.expr e).Yields s t s') (he : e.assigns = false) : s' = s := by
  obtain ⟨σ, rfl, hrun⟩ := cx.expr_derives e h
  rw [hrun.scopes_eq he]

/-! ## Writing a combination -/

/-- A compound assignment puts the combination of target and value into the target, as a plain one
would. -/
theorem assignedTy_compound_iff {op : ArithmeticOp} {name : String} {target value result : Ty}
    {span : Option Span} (span' : Option Span) :
    assignedTy (.compound op) name target value span = .ok result ↔
      ∃ ty, target.Combines value ty ∧ assignedTy .plain name target ty span' = .ok result := by
  simp only [assignedTy_eq_ok_iff]
  constructor
  · rintro ⟨⟨⟩ | hcombines, hfits⟩
    exact ⟨result, hcombines, .plain, hfits⟩
  · rintro ⟨ty, hcombines, ⟨⟩, hfits⟩
    exact ⟨.compound hcombines, hfits⟩

/-- The same where something is made of the type of the assignment. -/
theorem bind_assignedTy_compound_iff {β : Type} {op : ArithmeticOp} {name : String}
    {target value : Ty} {span : Option Span} (span' : Option Span) {f : Ty → Except TypeError β}
    {b : β} :
    (assignedTy (.compound op) name target value span >>= f) = .ok b ↔
      ∃ ty, target.Combines value ty ∧ (assignedTy .plain name target ty span' >>= f) = .ok b := by
  simp only [bind_eq_ok_iff, assignedTy_compound_iff span']
  constructor
  · rintro ⟨result, ⟨ty, hcombines, hassigned⟩, hf⟩
    exact ⟨ty, hcombines, result, hassigned, hf⟩
  · rintro ⟨ty, hcombines, result, hassigned, hf⟩
    exact ⟨result, ⟨ty, hcombines, hassigned⟩, hf⟩

/-- The type of an arithmetic expression is the combination of those of its operands. -/
theorem arithmeticAscription_iff {op : ArithmeticOp} {l r : Ascription} {span : Option Span}
    {ty : Ty} :
    (∃ a, binaryAscription (.arithmetic op) l r span = .ok a ∧ a.ty = ty) ↔
      l.ty.Combines r.ty ty := by
  constructor
  · rintro ⟨a, ha, rfl⟩
    rcases binaryAscription_eq_ok ha with ⟨-, hcombines⟩ | ⟨hop, -⟩
    · exact hcombines
    · cases hop
  · intro hcombines
    exact ⟨_, bind_eq_ok_iff.2 ⟨ty, arithmeticTy_eq_ok_iff.2 hcombines, rfl⟩, rfl⟩

namespace Context

open Infer

variable {cx : Context}

/-- A compound assignment to a name succeeds when the name can be read, combines with the value, and
can be assigned the combination; it then does what that assignment does. -/
theorem assignIdent_compound_iff {σ : Scopes} {op : ArithmeticOp} {name : String} {value : Ty}
    {targetSpan span : Option Span} (span' : Option Span) {result : Ty × Ty × Scopes} :
    cx.assignIdent σ (.compound op) name targetSpan value span = .ok result ↔
      ∃ a ty, cx.ident σ name targetSpan = .ok a ∧ a.ty.Combines value ty ∧
        cx.assignIdent σ .plain name targetSpan ty span' = .ok result := by
  unfold assignIdent ident
  cases σ.lookup? name with
  | some b =>
    cases b with
    | typed target =>
      simp only [bind_assignedTy_compound_iff span', Except.ok.injEq, exists_and_left,
        exists_eq_left', Ascription.ofTy]
    | constant target v =>
      simp only [bind_assignedTy_compound_iff span', Except.ok.injEq, exists_and_left,
        exists_eq_left']
    | pending => simp
  | none =>
    cases cx.injections.resolve? name with
    | some injected =>
      simp only [bind_assignedTy_compound_iff span', Except.ok.injEq, exists_and_left,
        exists_eq_left']
    | none => simp

/-- `cx.Writes s op value span target place result s'`: in the state `s` a value of type `value` is
assigned to the name or member `target` with `op`.  The target is then the node `place`, the
assignment has the type `result`, and `s'` is the state after it. -/
inductive Writes (cx : Context) (s : InferState) (op : AssignOp) (value : Ty)
    (span : Option Span) : Expr → TypedExpr → Ty → InferState → Prop where
  | ident {name : String} {targetSpan : Option Span} {target result : Ty} {after : Scopes} :
      cx.assignIdent s.scopes op name targetSpan value span = .ok (target, result, after) →
      Writes cx s op value span (.ident name targetSpan)
        (.ident name ⟨.ofTy target, targetSpan⟩) result { s with scopes := after }
  | member {object : Expr} {property : Ident} {targetSpan : Option Span} {place : TypedExpr}
      {result : Ty} :
      (cx.expr (.member object property targetSpan)).Yields s place s →
      assignedTy op (Expr.member object property targetSpan).describe place.ty value span
        = .ok result →
      Writes cx s op value span (.member object property targetSpan) place.forgetValue result
        { s with
          scopes := assignMember s.scopes (Expr.member object property targetSpan).describe
            place.ascription }

variable {op : ArithmeticOp} {target value : Expr} {path : String} {s s' : InferState}
  {span span' operation : Option Span} {place : TypedExpr} {result : Ty}

/-- An assignment of a value that assigns nothing infers the value and writes the target. -/
theorem yields_assign_iff {op : AssignOp} (htarget : target.path? = some path)
    (hvalue : value.assigns = false) {t : TypedExpr} :
    (cx.expr (.assign op target value span)).Yields s t s' ↔
      ∃ v place result, (cx.expr value).Yields s v s ∧
        cx.Writes s op v.ty span target place result s' ∧
        t = .assign op place v ⟨.ofTy result, span⟩ := by
  rw [expr, yields_bind_iff]
  constructor
  · rintro ⟨v, s₁, hv, hassign⟩
    obtain rfl := expr_still hv hvalue
    cases target with
    | ident name targetSpan =>
      obtain ⟨σ, s₂, hσ, hcheck⟩ := yields_bind_iff.1 hassign
      obtain ⟨rfl, rfl⟩ := yields_scopes_iff.1 hσ
      obtain ⟨⟨target, result, after⟩, s₃, hchecked, hwrite⟩ := yields_bind_iff.1 hcheck
      obtain ⟨hresult, rfl⟩ := yields_ofExcept_iff.1 hchecked
      obtain ⟨_, s₄, hwritten, hpure⟩ := yields_bind_iff.1 hwrite
      obtain rfl := yields_modifyScopes_iff.1 hwritten
      obtain ⟨rfl, rfl⟩ := yields_pure_iff.1 hpure
      exact ⟨v, _, result, hv, .ident hresult, rfl⟩
    | member object property targetSpan =>
      obtain ⟨place, s₂, hplace, hcheck⟩ := yields_bind_iff.1 hassign
      obtain rfl := expr_still hplace (Expr.assigns_of_path? htarget)
      obtain ⟨result, s₃, hchecked, hwrite⟩ := yields_bind_iff.1 hcheck
      obtain ⟨hresult, rfl⟩ := yields_ofExcept_iff.1 hchecked
      obtain ⟨_, s₄, hwritten, hpure⟩ := yields_bind_iff.1 hwrite
      obtain rfl := yields_modifyScopes_iff.1 hwritten
      obtain ⟨rfl, rfl⟩ := yields_pure_iff.1 hpure
      exact ⟨v, _, result, hv, .member hplace hresult, rfl⟩
    | _ => cases htarget
  · rintro ⟨v, place, result, hv, hwrites, rfl⟩
    refine ⟨v, s, hv, ?_⟩
    cases hwrites with
    | ident hresult =>
      refine yields_bind_iff.2 ⟨_, _, yields_scopes_iff.2 ⟨rfl, rfl⟩, ?_⟩
      refine yields_bind_iff.2 ⟨_, _, yields_ofExcept_iff.2 ⟨hresult, rfl⟩, ?_⟩
      exact yields_bind_iff.2 ⟨(), _, yields_modifyScopes_iff.2 rfl, yields_pure_iff.2 ⟨rfl, rfl⟩⟩
    | member hplace hresult =>
      refine yields_bind_iff.2 ⟨_, s, hplace, ?_⟩
      refine yields_bind_iff.2 ⟨_, _, yields_ofExcept_iff.2 ⟨hresult, rfl⟩, ?_⟩
      exact yields_bind_iff.2 ⟨(), _, yields_modifyScopes_iff.2 rfl, yields_pure_iff.2 ⟨rfl, rfl⟩⟩

/-- Reading a name yields its ascription. -/
theorem yields_ident_iff {name : String} {t : TypedExpr} :
    (cx.expr (.ident name span)).Yields s t s ↔
      ∃ a, cx.ident s.scopes name span = .ok a ∧ t = .ident name ⟨a, span⟩ := by
  rw [expr]
  constructor
  · intro h
    obtain ⟨σ, s₁, hσ, hcheck⟩ := yields_bind_iff.1 h
    obtain ⟨rfl, rfl⟩ := yields_scopes_iff.1 hσ
    obtain ⟨a, s₂, hchecked, hpure⟩ := yields_bind_iff.1 hcheck
    obtain ⟨ha, rfl⟩ := yields_ofExcept_iff.1 hchecked
    exact ⟨a, ha, (yields_pure_iff.1 hpure).1.symm⟩
  · rintro ⟨a, ha, rfl⟩
    refine yields_bind_iff.2 ⟨_, _, yields_scopes_iff.2 ⟨rfl, rfl⟩, ?_⟩
    exact yields_bind_iff.2 ⟨a, s, yields_ofExcept_iff.2 ⟨ha, rfl⟩, yields_pure_iff.2 ⟨rfl, rfl⟩⟩

/-- What arithmetic yields, where the operands do not change the state: the combination of their
types. -/
theorem yields_arithmetic_iff {op : ArithmeticOp} {left right : Expr} {span : Option Span}
    (hleft : left.assigns = false) (hright : right.assigns = false) {s : InferState} {ty : Ty} :
    (∃ t, (cx.expr (.binary (.arithmetic op) left right span)).Yields s t s ∧ t.ty = ty) ↔
      ∃ l r, (cx.expr left).Yields s l s ∧ (cx.expr right).Yields s r s ∧
        l.ty.Combines r.ty ty := by
  rw [expr]
  constructor
  · rintro ⟨t, hyields, rfl⟩
    obtain ⟨l, s₁, hl, hrest⟩ := yields_bind_iff.1 hyields
    obtain rfl := expr_still hl hleft
    obtain ⟨r, s₂, hr, hcheck⟩ := yields_bind_iff.1 hrest
    obtain rfl := expr_still hr hright
    obtain ⟨a, s₃, hchecked, hpure⟩ := yields_bind_iff.1 hcheck
    obtain ⟨ha, rfl⟩ := yields_ofExcept_iff.1 hchecked
    obtain ⟨rfl, -⟩ := yields_pure_iff.1 hpure
    exact ⟨l, r, hl, hr, arithmeticAscription_iff.1 ⟨a, ha, rfl⟩⟩
  · rintro ⟨l, r, hl, hr, hcombines⟩
    obtain ⟨a, ha, rfl⟩ := arithmeticAscription_iff.2 hcombines
    refine ⟨.binary (.arithmetic op) l r ⟨a, span⟩,
      yields_bind_iff.2 ⟨l, s, hl, yields_bind_iff.2 ⟨r, s, hr, ?_⟩⟩, rfl⟩
    exact yields_bind_iff.2 ⟨a, s, yields_ofExcept_iff.2 ⟨ha, rfl⟩, yields_pure_iff.2 ⟨rfl, rfl⟩⟩

/-- A compound write succeeds when the target can be read, combines with the value, and the
combination can be written; it then does what that write does. -/
theorem writes_compound_iff (htarget : target.path? = some path) {value : Ty} :
    cx.Writes s (.compound op) value span target place result s' ↔
      ∃ l ty, (cx.expr target).Yields s l s ∧ l.ty.Combines value ty ∧
        cx.Writes s .plain ty span' target place result s' := by
  constructor
  · intro hwrites
    cases hwrites with
    | ident hresult =>
      obtain ⟨a, ty, ha, hcombines, hplain⟩ := (assignIdent_compound_iff span').1 hresult
      exact ⟨_, ty, yields_ident_iff.2 ⟨a, ha, rfl⟩, hcombines, .ident hplain⟩
    | member hplace hresult =>
      obtain ⟨ty, hcombines, hplain⟩ := (assignedTy_compound_iff span').1 hresult
      exact ⟨_, ty, hplace, hcombines, .member hplace hplain⟩
  · rintro ⟨l, ty, hread, hcombines, hwrites⟩
    cases hwrites with
    | ident hplain =>
      obtain ⟨a, ha, rfl⟩ := yields_ident_iff.1 hread
      exact .ident ((assignIdent_compound_iff span').2 ⟨a, ty, ha, hcombines, hplain⟩)
    | member hplace hplain =>
      -- Reading the target is what writing it begins with.
      obtain rfl := (hread.unique hplace).1
      exact .member hplace ((assignedTy_compound_iff span').2 ⟨ty, hcombines, hplain⟩)

/-! ## Both forms -/

/-- The two forms of an assignment write the same node with the same result. -/
theorem compound_iff_expansion (htarget : target.path? = some path)
    (hvalue : value.assigns = false) :
    (∃ v, (cx.expr (.assign (.compound op) target value span)).Yields s
        (.assign (.compound op) place v ⟨.ofTy result, span⟩) s') ↔
      ∃ w, (cx.expr (.assign .plain target (.binary (.arithmetic op) target value operation)
          span')).Yields s (.assign .plain place w ⟨.ofTy result, span'⟩) s' := by
  have htargetStill := Expr.assigns_of_path? htarget
  simp only [yields_assign_iff htarget hvalue,
    yields_assign_iff htarget (Expr.assigns_operation htarget hvalue)]
  constructor
  · rintro ⟨v, v', place', result', hv, hwrites, heq⟩
    cases heq
    obtain ⟨l, ty, hread, hcombines, hplain⟩ := (writes_compound_iff htarget).1 hwrites
    obtain ⟨w, hw, rfl⟩ :=
      (yields_arithmetic_iff htargetStill hvalue).2 ⟨l, v, hread, hv, hcombines⟩
    exact ⟨w, w, place, result, hw, hplain, rfl⟩
  · rintro ⟨w, w', place', result', hw, hwrites, heq⟩
    cases heq
    obtain ⟨l, v, hread, hv, hcombines⟩ :=
      (yields_arithmetic_iff htargetStill hvalue).1 ⟨w, hw, rfl⟩
    exact ⟨v, v, place, result, hv,
      (writes_compound_iff htarget).2 ⟨l, w.ty, hread, hcombines, hwrites⟩, rfl⟩

/-- From any state of inference, `target op= value` for a name or path `target` and a value without
assignments succeeds exactly when `target = target op value` does.  Both then make the same node of
the target, have the same type, and end in the same state. -/
theorem compound_assignment_expands (cx : Context) (op : ArithmeticOp) {target value : Expr}
    {path : String} (htarget : target.path? = some path) (hvalue : value.assigns = false)
    (span span' operation : Option Span) (s : InferState) :
    ((∃ t s', (cx.expr (.assign (.compound op) target value span)).Yields s t s') ↔
      ∃ t s', (cx.expr (.assign .plain target
        (.binary (.arithmetic op) target value operation) span')).Yields s t s') ∧
    ∀ t₁ s₁ t₂ s₂,
      (cx.expr (.assign (.compound op) target value span)).Yields s t₁ s₁ →
      (cx.expr (.assign .plain target
        (.binary (.arithmetic op) target value operation) span')).Yields s t₂ s₂ →
      ∃ place v w result, t₁ = .assign (.compound op) place v ⟨.ofTy result, span⟩ ∧
        t₂ = .assign .plain place w ⟨.ofTy result, span'⟩ ∧ s₁ = s₂ := by
  refine ⟨⟨?_, ?_⟩, ?_⟩
  · rintro ⟨t, s', h⟩
    obtain ⟨v, place, result, -, -, rfl⟩ := (yields_assign_iff htarget hvalue).1 h
    obtain ⟨w, hw⟩ := (compound_iff_expansion htarget hvalue).1 ⟨v, h⟩
    exact ⟨_, s', hw⟩
  · rintro ⟨t, s', h⟩
    obtain ⟨w, place, result, -, -, rfl⟩ :=
      (yields_assign_iff htarget (Expr.assigns_operation htarget hvalue)).1 h
    obtain ⟨v, hv⟩ := (compound_iff_expansion htarget hvalue).2 ⟨w, h⟩
    exact ⟨_, s', hv⟩
  · intro t₁ s₁ t₂ s₂ h₁ h₂
    obtain ⟨v, place, result, -, -, rfl⟩ := (yields_assign_iff htarget hvalue).1 h₁
    obtain ⟨w, hw⟩ := (compound_iff_expansion htarget hvalue).1 ⟨v, h₁⟩
    obtain ⟨rfl, rfl⟩ := h₂.unique hw
    exact ⟨place, v, w, result, rfl, rfl, rfl⟩

end Context

namespace Sample

/-- A member with a known value, and a number to add to it. -/
def gains : Injections :=
  ⟨[("env.gain", ⟨.int, some (.number (Number.ofInt 3))⟩), ("step", .ofTy .int)]⟩

/-- `function amplify(env) { }` -/
def amplify : Function := Bare.function "amplify" ["env"] []

/-- The state in which the body of `amplify` starts. -/
def amplifying : InferState := ⟨Function.bodyScopes [(⟨"env", none⟩, .ofTy (.object .record))], []⟩

/-- `env.gain` -/
def gain : Expr := Bare.member (Bare.ident "env") "gain"

/-- `env.gain += step` and `env.gain = env.gain + step` are both accepted where `env.gain` still has
its value, and both take the value away. -/
theorem gain_step_expands :
    amplify.Reaches gains ⟨[]⟩ amplifying ∧
    ∃ t₁ t₂ s,
      ((amplify.context gains ⟨[]⟩).expr
        (Bare.assign (.compound .add) gain (Bare.ident "step"))).Yields amplifying t₁ s ∧
      ((amplify.context gains ⟨[]⟩).expr (Bare.assign .plain gain
        (Bare.binary (.arithmetic .add) gain (Bare.ident "step")))).Yields amplifying t₂ s ∧
      s.scopes.lookup? "env.gain" = some (.typed .int) := by
  have hcompound : ((amplify.context gains ⟨[]⟩).expr
      (Bare.assign (.compound .add) gain (Bare.ident "step"))).Yields amplifying
      (.assign (.compound .add)
        (.member (.ident "env" (mark (.object .record))) "gain" (mark .int))
        (.ident "step" (mark .int)) (mark .int))
      { amplifying with scopes := amplifying.scopes.insertOutermost "env.gain" (.typed .int) } :=
    rfl
  have hpath : gain.path? = some "env.gain" := rfl
  have hstep : (Bare.ident "step").assigns = false := rfl
  obtain ⟨haccepted, hsame⟩ := Context.compound_assignment_expands
    (amplify.context gains ⟨[]⟩) .add hpath hstep none none none amplifying
  obtain ⟨t₂, s₂, hplain⟩ := haccepted.1 ⟨_, _, hcompound⟩
  obtain ⟨_, _, _, _, -, -, rfl⟩ := hsame _ _ _ _ hcompound hplain
  exact ⟨.start rfl, _, _, _, hcompound, hplain, rfl⟩

end Sample

end Shader
