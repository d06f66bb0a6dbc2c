import Shader.Proofs.KnownValue
import Shader.Syntax.Load

/-!
# The literals of loaded programs

Every literal of a loaded program was read from a literal node of the document: loading takes trees
apart and puts them together again, and makes no literal of its own.  So what holds of every literal
that a node can be read as holds of every literal of the program (`Program.literals_of_ofJson`).
-/

namespace Shader

/-- `IsLoaded l`: some node of a document is read as the literal `l`. -/
def Literal.IsLoaded (l : Literal) : Prop :=
  ∃ (n : Node) (span : Option Span), n.literal = .ok (.literal l span)

/-- The number of a loaded literal is finite: a document has no others. -/
theorem Literal.IsLoaded.isFinite {l : Literal} (h : l.IsLoaded) {x : Float}
    (hx : l.value = some (.number x)) : x.isFinite = true := by
  obtain ⟨n, span, h⟩ := h
  unfold Node.literal at h
  split at h
  · cases h
  · split at h
    · cases h
      cases hx
    · split at h
      · cases h
        cases hx
      · cases h
        cases hx
      · rename_i k _
        cases h
        cases hx
        exact Number.isFinite_of_isWhole (Number.isWhole_ofInt k)
      · rename_i y _
        cases h
        cases hx
        exact y.finite
      · cases h

theorem Expr.mem_literalsArgs {l : Literal} {es : List Expr} :
    l ∈ literalsArgs es ↔ ∃ e ∈ es, l ∈ e.literals := by
  induction es with
  | nil => simp [literalsArgs]
  | cons e rest ih => simp [literalsArgs, ih]

theorem Stmt.mem_literalsAll {l : Literal} {ss : List Stmt} :
    l ∈ literalsAll ss ↔ ∃ s ∈ ss, l ∈ s.literals := by
  induction ss with
  | nil => simp [literalsAll]
  | cons s rest ih => simp [literalsAll, ih]

namespace Node

/-- What is read from an array is read from nodes inside the node. -/
theorem exists_of_mem_mapItems {α : Type} {n : Node} {field : String}
    {read : n.Child → Except LoadError α} {as : List α} (h : n.mapItems field read = .ok as) {a : α}
    (ha : a ∈ as) : ∃ m : n.Child, read m = .ok a := by
  obtain ⟨items, -, h⟩ := bind_eq_ok_iff.1 h
  obtain ⟨v, -, hv⟩ := exists_of_mem_mapM h ha
  obtain ⟨m, -, hm⟩ := bind_eq_ok_iff.1 hv
  exact ⟨m, hm⟩

/-- A literal node is read as a literal, or as nothing that has literals. -/
theorem literals_of_literal {n : Node} {e : Expr} (h : n.literal = .ok e) :
    ∀ l ∈ e.literals, l.IsLoaded := by
  have hcases : (∃ l span, e = .literal l span) ∨ ∃ kind span, e = .unsupported kind span := by
    unfold literal at h
    split at h
    · cases h
      exact .inr ⟨_, _, rfl⟩
    · split at h
      · cases h
        exact .inl ⟨_, _, rfl⟩
      · split at h
        · cases h
          exact .inl ⟨_, _, rfl⟩
        · cases h
          exact .inl ⟨_, _, rfl⟩
        · cases h
          exact .inl ⟨_, _, rfl⟩
        · cases h
          exact .inl ⟨_, _, rfl⟩
        · cases h
  rcases hcases with ⟨l, span, rfl⟩ | ⟨kind, span, rfl⟩
  · intro l' hl'
    obtain rfl := List.mem_singleton.1 hl'
    exact ⟨n, span, h⟩
  · intro l hl
    cases hl

/-- The literals of an expression that was read from a node were read from nodes. -/
theorem literals_of_expr (n : Node) {e : Expr} (h : n.expr = .ok e) :
    ∀ l ∈ e.literals, l.IsLoaded := by
  -- The parts of a node are smaller, so the statement may be used of them.
  have hpart : ∀ (m : n.Child) {e : Expr}, m.1.expr = .ok e → ∀ l ∈ e.literals, l.IsLoaded :=
    fun m _ hm => literals_of_expr m.1 hm
  have hchild : ∀ {field : String} {k : Expr → Except LoadError Expr} {e : Expr},
      (do let m ← n.child field; let part ← m.1.expr; k part) = .ok e →
      ∃ part : Expr, (∀ l ∈ part.literals, l.IsLoaded) ∧ k part = .ok e := by
    intro field k e hk
    obtain ⟨m, -, hk⟩ := bind_eq_ok_iff.1 hk
    obtain ⟨part, hm, hk⟩ := bind_eq_ok_iff.1 hk
    exact ⟨part, hpart m hm, hk⟩
  have hargs : ∀ {args : List Expr}, n.mapItems "arguments" (fun m => m.1.expr) = .ok args →
      ∀ l ∈ Expr.literalsArgs args, l.IsLoaded := by
    intro args hargs l hl
    obtain ⟨arg, harg, hl⟩ := Expr.mem_literalsArgs.1 hl
    obtain ⟨m, hm⟩ := exists_of_mem_mapItems hargs harg
    exact hpart m hm l hl
  rw [expr.eq_def] at h
  split at h
  · exact literals_of_literal h
  · obtain ⟨name, -, h⟩ := bind_eq_ok_iff.1 h
    cases h
    simp [Expr.literals]
  · obtain ⟨object, hobject, h⟩ := hchild h
    obtain ⟨computed, -, h⟩ := bind_eq_ok_iff.1 h
    split at h
    · obtain ⟨key, hkey, h⟩ := hchild h
      cases h
      exact List.forall_mem_append.2 ⟨hobject, hkey⟩
    · obtain ⟨property, -, h⟩ := bind_eq_ok_iff.1 h
      cases h
      simpa [Expr.literals] using hobject
  · obtain ⟨callee, hcallee, h⟩ := hchild h
    obtain ⟨args, hmap, h⟩ := bind_eq_ok_iff.1 h
    cases h
    exact List.forall_mem_append.2 ⟨hcallee, hargs hmap⟩
  · obtain ⟨callee, hcallee, h⟩ := hchild h
    obtain ⟨args, hmap, h⟩ := bind_eq_ok_iff.1 h
    cases h
    exact List.forall_mem_append.2 ⟨hcallee, hargs hmap⟩
  · obtain ⟨op, -, h⟩ := bind_eq_ok_iff.1 h
    obtain ⟨left, hleft, h⟩ := hchild h
    obtain ⟨right, hright, h⟩ := hchild h
    cases h
    exact List.forall_mem_append.2 ⟨hleft, hright⟩
  · obtain ⟨op, -, h⟩ := bind_eq_ok_iff.1 h
    obtain ⟨left, hleft, h⟩ := hchild h
    obtain ⟨right, hright, h⟩ := hchild h
    cases h
    exact List.forall_mem_append.2 ⟨hleft, hright⟩
  · obtain ⟨op, -, h⟩ := bind_eq_ok_iff.1 h
    obtain ⟨target, htarget, h⟩ := hchild h
    obtain ⟨value, hvalue, h⟩ := hchild h
    cases h
    exact List.forall_mem_append.2 ⟨htarget, hvalue⟩
  · obtain ⟨test, htest, h⟩ := hchild h
    obtain ⟨consequent, hconsequent, h⟩ := hchild h
    obtain ⟨alternate, halternate, h⟩ := hchild h
    cases h
    have hbranches := List.forall_mem_append.2 ⟨hconsequent, halternate⟩
    exact List.forall_mem_append.2 ⟨htest, hbranches⟩
  · obtain ⟨op, -, h⟩ := bind_eq_ok_iff.1 h
    obtain ⟨argument, hargument, h⟩ := hchild h
    cases h
    simpa [Expr.literals] using hargument
  · cases h
    simp [Expr.literals]
termination_by n.weight
decreasing_by exact weight_child m

/-- The expression in a field that may be missing, if it is there. -/
theorem literals_of_expr? {n : Node} {field : String} {e? : Option Expr}
    (h : n.expr? field = .ok e?) : ∀ l ∈ (e?.map Expr.literals).getD [], l.IsLoaded := by
  obtain ⟨m?, -, h⟩ := bind_eq_ok_iff.1 h
  cases m? with
  | none =>
    cases h
    simp
  | some m =>
    obtain ⟨e, hm, h⟩ := bind_eq_ok_iff.1 h
    cases h
    simpa using literals_of_expr m.1 hm

theorem literals_of_declarator {n : Node} {d : Declarator} (h : n.declarator = .ok d) :
    ∀ l ∈ (d.init.map Expr.literals).getD [], l.IsLoaded := by
  obtain ⟨name, -, h⟩ := bind_eq_ok_iff.1 h
  obtain ⟨init, hinit, h⟩ := bind_eq_ok_iff.1 h
  cases h
  exact literals_of_expr? hinit

/-- The statements of a body are read from nodes inside the node. -/
theorem exists_of_mem_body {n : Node} {read : n.Child → Except LoadError Stmt} {body : List Stmt}
    (h : n.body read = .ok body) {s : Stmt} (hs : s ∈ body) : ∃ m : n.Child, read m = .ok s := by
  obtain ⟨items, hitems, h⟩ := bind_eq_ok_iff.1 h
  cases h
  obtain ⟨item, hitem, rfl⟩ := List.mem_filterMap.1 hs
  obtain ⟨m, hm⟩ := exists_of_mem_mapItems hitems hitem
  split at hm
  · cases hm
  · obtain ⟨s', hread, hm⟩ := bind_eq_ok_iff.1 hm
    cases hm
    exact ⟨m, hread⟩

/-- The literals of a statement that was read from a node were read from nodes. -/
theorem literals_of_stmt (n : Node) {s : Stmt} (h : n.stmt = .ok s) :
    ∀ l ∈ s.literals, l.IsLoaded := by
  have hpart : ∀ (m : n.Child) {s : Stmt}, m.1.stmt = .ok s → ∀ l ∈ s.literals, l.IsLoaded :=
    fun m _ hm => literals_of_stmt m.1 hm
  have hbranch : ∀ (m : n.Child) {s : Stmt}, (m.1.branch fun _ => m.1.stmt) = .ok s →
      ∀ l ∈ s.literals, l.IsLoaded := by
    intro m s hm
    unfold branch at hm
    split at hm
    · cases hm
      simp [Stmt.literals, Stmt.literalsAll]
    · exact hpart m hm
  rw [stmt.eq_def] at h
  split at h
  · obtain ⟨ds, hmap, h⟩ := bind_eq_ok_iff.1 h
    cases h
    intro l hl
    obtain ⟨d, hd, hl⟩ := List.mem_flatMap.1 hl
    obtain ⟨m, hm⟩ := exists_of_mem_mapItems hmap hd
    exact literals_of_declarator hm l hl
  · obtain ⟨m, -, h⟩ := bind_eq_ok_iff.1 h
    obtain ⟨e, hm, h⟩ := bind_eq_ok_iff.1 h
    cases h
    simpa [Stmt.literals] using literals_of_expr m.1 hm
  · obtain ⟨e?, he, h⟩ := bind_eq_ok_iff.1 h
    cases h
    cases e? with
    | none => simp [Stmt.literals]
    | some e => simpa [Stmt.literals] using literals_of_expr? he
  · obtain ⟨t, -, h⟩ := bind_eq_ok_iff.1 h
    obtain ⟨test, htest, h⟩ := bind_eq_ok_iff.1 h
    obtain ⟨c, -, h⟩ := bind_eq_ok_iff.1 h
    obtain ⟨consequent, hconsequent, h⟩ := bind_eq_ok_iff.1 h
    obtain ⟨a?, -, h⟩ := bind_eq_ok_iff.1 h
    have hfirst := literals_of_expr t.1 htest
    have hsecond := hbranch c hconsequent
    cases a? with
    | none =>
      cases h
      exact List.forall_mem_append.2 ⟨hfirst, hsecond⟩
    | some a =>
      obtain ⟨alternate, halternate, h⟩ := bind_eq_ok_iff.1 h
      cases h
      have hbranches := List.forall_mem_append.2 ⟨hsecond, hbranch a halternate⟩
      exact List.forall_mem_append.2 ⟨hfirst, hbranches⟩
  · obtain ⟨body, hbody, h⟩ := bind_eq_ok_iff.1 h
    cases h
    intro l hl
    obtain ⟨s, hs, hl⟩ := Stmt.mem_literalsAll.1 hl
    obtain ⟨m, hm⟩ := exists_of_mem_body hbody hs
    exact hpart m hm l hl
  · cases h
    simp [Stmt.literals]
termination_by n.weight
decreasing_by exact weight_child m

theorem literals_of_function {n : Node} {f : Function} (h : n.function = .ok f) :
    ∀ l ∈ f.literals, l.IsLoaded := by
  obtain ⟨name, -, h⟩ := bind_eq_ok_iff.1 h
  obtain ⟨items, -, h⟩ := bind_eq_ok_iff.1 h
  obtain ⟨params, -, h⟩ := bind_eq_ok_iff.1 h
  obtain ⟨m, -, h⟩ := bind_eq_ok_iff.1 h
  split at h
  · obtain ⟨body, hbody, h⟩ := bind_eq_ok_iff.1 h
    cases h
    intro l hl
    obtain ⟨s, hs, hl⟩ := Stmt.mem_literalsAll.1 hl
    obtain ⟨c, hc⟩ := exists_of_mem_body hbody hs
    exact literals_of_stmt c.1 hc l hl
  · cases h

theorem literals_of_topLevel {n : Node} {f : Function} (h : n.topLevel = .ok (some f)) :
    ∀ l ∈ f.literals, l.IsLoaded := by
  unfold topLevel at h
  split at h
  · obtain ⟨g, hg, h⟩ := bind_eq_ok_iff.1 h
    cases h
    exact literals_of_function hg
  · cases h
  · split at h
    · cases h
    · cases h

end Node

/-- The literals of a program that was read from a document were read from its nodes. -/
theorem Program.literals_of_ofJson {v : Json} {p : Program} (h : Program.ofJson v = .ok p) :
    ∀ l ∈ p.literals, l.IsLoaded := by
  have hfunctions : ∀ f ∈ p.functions, ∀ l ∈ f.literals, l.IsLoaded := by
    unfold ofJson at h
    split at h
    · unfold Node.program at h
      split at h
      · obtain ⟨items, hitems, h⟩ := bind_eq_ok_iff.1 h
        cases h
        intro f hf
        obtain ⟨item, hitem, rfl⟩ := List.mem_filterMap.1 hf
        obtain ⟨m, hm⟩ := Node.exists_of_mem_mapItems hitems hitem
        exact Node.literals_of_topLevel hm
      · obtain ⟨g, hg, h⟩ := bind_eq_ok_iff.1 h
        cases h
        intro f hf
        obtain rfl := List.mem_singleton.1 hf
        exact Node.literals_of_function hg
      · cases h
    · cases h
  intro l hl
  obtain ⟨f, hf, hl⟩ := List.mem_flatMap.1 hl
  exact hfunctions f hf l hl

end Shader
