import Shader.Proofs.Shape

/-!
# The text of an expression keeps its grouping

A decoder for the text of plain shapes.  An operation has two or three *pieces*: names with members
and calls after them, pieces with a prefix operator, and operations in parentheses.  An assignment
ends with an operation of any kind.  The decoder takes a piece, looks at the word after it, and so
knows what operation it is in.

The text of a shape is decoded to that shape (`Shape.decode_chars`), where the object of every
member and the callee of every call is a name, a member or a call.  So two such expressions with one
text are the same up to types, values and spans.  Other objects and callees are written without
parentheses, and their text is that of another expression.
-/

namespace Shader

namespace Shape

/-! ## The decoder -/

/-- What stands between the first two parts of an operation. -/
inductive Connective where
  | binary (op : BinaryOp)
  | logical (op : LogicalOp)
  | assign (op : AssignOp)
  | conditional

/-- The connective that a word denotes. -/
def Connective.ofText? (word : String) : Option Connective :=
  match BinaryOp.ofText? word with
  | some op => some (.binary op)
  | none =>
    match LogicalOp.ofText? word with
    | some op => some (.logical op)
    | none =>
      match AssignOp.ofText? word with
      | some op => some (.assign op)
      | none => if word = "?" then some .conditional else none

/-- Read a connective and the blank after it. -/
def Connective.read? (text : List Char) : Option (Connective × List Char) :=
  match text.dropWhile (· != ' ') with
  | ' ' :: rest =>
    (Connective.ofText? (String.ofList (text.takeWhile (· != ' ')))).map fun c => (c, rest)
  | _ => none

/-- Read a plain name. -/
def readName? (text : List Char) : Option (String × List Char) :=
  if (text.takeWhile isNameChar).isEmpty then none
  else some (String.ofList (text.takeWhile isNameChar), text.dropWhile isNameChar)

/-- The prefix operator that a character denotes. -/
def unaryOf? : Char → Option UnaryOp
  | '-' => some .neg
  | '+' => some .plus
  | '!' => some .not
  | _ => none

mutual

/-- Read an expression, with a bound on the depth of the recursion. -/
def readExpr? : Nat → List Char → Option (Shape × List Char)
  | 0, _ => none
  | n + 1, text =>
    match readPiece? n text with
    | none => none
    | some (left, ' ' :: rest) =>
      match Connective.read? rest with
      | none => none
      | some (.binary op, rest) => (readPiece? n rest).map fun r => (.binary op left r.1, r.2)
      | some (.logical op, rest) => (readPiece? n rest).map fun r => (.logical op left r.1, r.2)
      | some (.assign op, rest) => (readExpr? n rest).map fun r => (.assign op left r.1, r.2)
      | some (.conditional, rest) =>
        match readPiece? n rest with
        | some (consequent, ' ' :: ':' :: ' ' :: rest) =>
          (readPiece? n rest).map fun r => (.conditional left consequent r.1, r.2)
        | _ => none
    | some (left, rest) => some (left, rest)

/-- Read a piece: what may be an operand without further parentheses. -/
def readPiece? : Nat → List Char → Option (Shape × List Char)
  | 0, _ => none
  | _ + 1, [] => none
  | n + 1, c :: rest =>
    if c = '(' then
      match readExpr? n rest with
      | some (s, ')' :: rest) => some (s, rest)
      | _ => none
    else
      match unaryOf? c with
      | some op => (readPiece? n rest).map fun r => (.unary op r.1, r.2)
      | none =>
        match readName? (c :: rest) with
        | some (name, rest) => readSuffixes? n (.ident name) rest
        | none => none

/-- Read the members and calls after `s`. -/
def readSuffixes? : Nat → Shape → List Char → Option (Shape × List Char)
  | 0, _, _ => none
  | n + 1, s, '.' :: rest =>
    match readName? rest with
    | some (property, rest) => readSuffixes? n (.member s property) rest
    | none => none
  | n + 1, s, '(' :: rest =>
    match readArgs? n rest with
    | some (args, rest) => readSuffixes? n (.call s args) rest
    | none => none
  | _ + 1, s, rest => some (s, rest)

/-- Read arguments up to the closing parenthesis. -/
def readArgs? : Nat → List Char → Option (List Shape × List Char)
  | 0, _ => none
  | _ + 1, ')' :: rest => some ([], rest)
  | n + 1, text =>
    match readExpr? n text with
    | some (s, ')' :: rest) => some ([s], rest)
    | some (s, ',' :: ' ' :: rest) => (readArgs? n rest).map fun r => (s :: r.1, r.2)
    | _ => none

end

/-- The shape that a text is that of. -/
def decode (text : List Char) : Option Shape :=
  match readExpr? (3 * text.length + 3) text with
  | some (s, []) => some s
  | _ => none

/-! ## Words and names -/

/-- Whether a name is complete where this text follows. -/
def endsName : List Char → Bool
  | [] => true
  | c :: _ => !isNameChar c

/-- Whether a piece is complete where this text follows. -/
def endsPiece : List Char → Bool
  | [] => true
  | c :: _ => " ),".toList.contains c

/-- Whether an expression is complete where this text follows. -/
def endsExpr : List Char → Bool
  | [] => true
  | c :: _ => "),".toList.contains c

/-- What ends an expression ends a piece. -/
theorem endsPiece_of_endsExpr {r : List Char} (h : endsExpr r = true) : endsPiece r = true := by
  cases r with
  | nil => rfl
  | cons c r =>
    simp only [endsExpr, endsPiece, List.contains_iff_mem] at h ⊢
    exact List.mem_cons_of_mem ' ' h

/-- What ends a piece ends a name. -/
theorem endsName_of_endsPiece {r : List Char} (h : endsPiece r = true) : endsName r = true := by
  cases r with
  | nil => rfl
  | cons c r =>
    have hmem : c ∈ [' ', ')', ','] := List.contains_iff_mem.1 h
    simp only [List.mem_cons, List.not_mem_nil, or_false] at hmem
    rcases hmem with rfl | rfl | rfl <;> rfl

/-- A plain name is read up to its end. -/
theorem readName?_append {name : String} {r : List Char} (h : isPlainName name = true)
    (hr : endsName r = true) : readName? (name.toList ++ r) = some (name, r) := by
  obtain ⟨c, cs, hname, hc, hcs⟩ := exists_cons_of_isPlainName h
  have hall : ∀ x ∈ name.toList, isNameChar x = true := by
    rw [hname]
    exact List.forall_mem_cons.2 ⟨hc, List.all_eq_true.1 hcs⟩
  have htake : r.takeWhile isNameChar = [] ∧ r.dropWhile isNameChar = r := by
    cases r with
    | nil => exact ⟨rfl, rfl⟩
    | cons x r =>
      have hx : isNameChar x = false := by simpa [endsName] using hr
      simp [hx]
  have hne : name.toList.isEmpty = false := by rw [hname, List.isEmpty_cons]
  unfold readName?
  rw [List.takeWhile_append_of_pos hall, List.dropWhile_append_of_pos hall, htake.1, htake.2,
    List.append_nil, hne, String.ofList_toList]
  rfl

/-- A connective is read up to the blank after it. -/
theorem Connective.read?_append {word : String} (h : ∀ c ∈ word.toList, (c != ' ') = true)
    (r : List Char) :
    Connective.read? (word.toList ++ ' ' :: r) = (Connective.ofText? word).map fun c => (c, r) := by
  unfold Connective.read?
  rw [List.takeWhile_append_of_pos h, List.dropWhile_append_of_pos h]
  simp

/-- The word of an operator denotes it. -/
theorem Connective.read?_binary (op : BinaryOp) (r : List Char) :
    Connective.read? (op.text.toList ++ ' ' :: r) = some (.binary op, r) := by
  have hblank : op.text.toList.all (· != ' ') = true := by
    rcases op with op | op <;> cases op <;> decide
  have hword : Connective.ofText? op.text = some (.binary op) := by
    rcases op with op | op <;> cases op <;> rfl
  rw [Connective.read?_append (List.all_eq_true.1 hblank), hword]
  rfl

/-- The word of a connective denotes it. -/
theorem Connective.read?_logical (op : LogicalOp) (r : List Char) :
    Connective.read? (op.text.toList ++ ' ' :: r) = some (.logical op, r) := by
  have hblank : op.text.toList.all (· != ' ') = true := by
    cases op <;> decide
  have hword : Connective.ofText? op.text = some (.logical op) := by
    cases op <;> rfl
  rw [Connective.read?_append (List.all_eq_true.1 hblank), hword]
  rfl

/-- The word of an assignment denotes it. -/
theorem Connective.read?_assign (op : AssignOp) (r : List Char) :
    Connective.read? (op.text.toList ++ ' ' :: r) = some (.assign op, r) := by
  have hblank : op.text.toList.all (· != ' ') = true := by
    rcases op with _ | op
    · decide
    · cases op <;> decide
  have hword : Connective.ofText? op.text = some (.assign op) := by
    rcases op with _ | op
    · rfl
    · cases op <;> rfl
  rw [Connective.read?_append (List.all_eq_true.1 hblank), hword]
  rfl

/-- A name does not start like a piece of another kind. -/
theorem unaryOf?_of_isNameChar {c : Char} (h : isNameChar c = true) :
    c ≠ '(' ∧ unaryOf? c = none := by
  constructor
  · rintro rfl
    exact absurd h (by decide)
  · unfold unaryOf?
    split
    · exact absurd h (by decide)
    · exact absurd h (by decide)
    · exact absurd h (by decide)
    · rfl

/-! ## Reading what was written -/

/-- With its suffixes still to come, `s` is read as the start of a piece. -/
def ReadsSuffixes (s : Shape) : Prop :=
  ∀ (r : List Char) (result : Option (Shape × List Char)) (k : Nat), endsName r = true →
    (∀ n, k ≤ n → readSuffixes? n s r = result) →
    ∀ n, 3 * s.chars.length + k ≤ n → readPiece? n (s.chars ++ r) = result

/-- As an operand `s` is read as a piece. -/
def ReadsPiece (s : Shape) : Prop :=
  ∀ r : List Char, endsPiece r = true →
    ∀ n, 3 * s.operandChars.length + 2 ≤ n → readPiece? n (s.operandChars ++ r) = some (s, r)

/-- The text of `s` is read as an expression. -/
def ReadsExpr (s : Shape) : Prop :=
  ∀ r : List Char, endsExpr r = true →
    ∀ n, 3 * s.chars.length + 3 ≤ n → readExpr? n (s.chars ++ r) = some (s, r)

/-- Arguments are read up to the parenthesis after them. -/
def ReadsArgs (ss : List Shape) : Prop :=
  ∀ (r : List Char) (n : Nat), 3 * (charsArgs ss).length + 4 ≤ n →
    readArgs? n (charsArgs ss ++ ')' :: r) = some (ss, r)

/-- The text of `s` is read as `s` wherever it may stand. -/
structure Reads (s : Shape) : Prop where
  suffixes : s.isPostfix = true → ReadsSuffixes s
  piece : ReadsPiece s
  expr : ReadsExpr s

/-- What is no operation needs no parentheses. -/
theorem operandChars_eq {s : Shape} (h : s.isCompound = false) : s.operandChars = s.chars := by
  rw [operandChars, h]
  rfl

/-- An operation is read in parentheses. -/
theorem ReadsExpr.piece {s : Shape} (h : ReadsExpr s) (hs : s.isCompound = true) :
    ReadsPiece s := by
  intro r hr n hn
  rw [operandChars, enclose, if_pos hs] at hn ⊢
  simp only [List.length_cons, List.length_append, List.length_nil] at hn
  obtain ⟨m, rfl⟩ : ∃ m, n = m + 1 := ⟨n - 1, by omega⟩
  have hread : readExpr? m (s.chars ++ ')' :: r) = some (s, ')' :: r) := h _ rfl m (by omega)
  rw [List.cons_append, List.append_assoc, readPiece?, if_pos rfl]
  simp only [List.cons_append, List.nil_append, hread]

/-- What needs no parentheses is read like an operand. -/
theorem ReadsPiece.expr {s : Shape} (h : ReadsPiece s) (hs : s.isCompound = false) :
    ReadsExpr s := by
  intro r hr n hn
  have hchars := operandChars_eq hs
  obtain ⟨m, rfl⟩ : ∃ m, n = m + 1 := ⟨n - 1, by omega⟩
  have hread := h r (endsPiece_of_endsExpr hr) m (by rw [hchars]; omega)
  rw [hchars] at hread
  rw [readExpr?, hread]
  cases r with
  | nil => rfl
  | cons c r =>
    have hmem : c ∈ [')', ','] := List.contains_iff_mem.1 hr
    simp only [List.mem_cons, List.not_mem_nil, or_false] at hmem
    rcases hmem with rfl | rfl <;> rfl

/-- Without further suffixes a name, a member or a call is a piece. -/
theorem ReadsSuffixes.piece {s : Shape} (h : ReadsSuffixes s) (hs : s.isCompound = false) :
    ReadsPiece s := by
  intro r hr n hn
  have hchars := operandChars_eq hs
  rw [hchars] at hn ⊢
  have hend : ∀ n, 1 ≤ n → readSuffixes? n s r = some (s, r) := by
    intro n hn
    obtain ⟨m, rfl⟩ : ∃ m, n = m + 1 := ⟨n - 1, by omega⟩
    cases r with
    | nil => rfl
    | cons c r =>
      have hmem : c ∈ [' ', ')', ','] := List.contains_iff_mem.1 hr
      simp only [List.mem_cons, List.not_mem_nil, or_false] at hmem
      rcases hmem with rfl | rfl | rfl <;> rfl
  exact h r _ 1 (endsName_of_endsPiece hr) hend n (by omega)

/-- A name, a member or a call is read wherever it is read with its suffixes. -/
theorem ReadsSuffixes.reads {s : Shape} (h : ReadsSuffixes s) (hs : s.isCompound = false) :
    Reads s :=
  ⟨fun _ => h, h.piece hs, (h.piece hs).expr hs⟩

/-- An operation is read wherever it is read as an expression. -/
theorem ReadsExpr.reads {s : Shape} (h : ReadsExpr s) (hs : s.isCompound = true)
    (hnot : s.isPostfix = false) : Reads s :=
  ⟨fun hp => absurd (hp.symm.trans hnot) (by decide), h.piece hs, h⟩

/-- What follows an operation follows its last part. -/
theorem join_append (left right r : List Char) (word : String) :
    join left word right ++ r = left ++ ' ' :: (word.toList ++ ' ' :: (right ++ r)) := by
  simp [join]

/-- The length of an operation. -/
theorem length_join (left right : List Char) (word : String) :
    (join left word right).length = left.length + word.toList.length + right.length + 2 := by
  simp only [join, List.length_append, List.length_cons]
  omega

/-- A name is read. -/
theorem readsSuffixes_ident {name : String} (h : isPlainName name = true) :
    ReadsSuffixes (.ident name) := by
  intro r result k hr hsuffixes n hn
  obtain ⟨c, cs, hname, hc, -⟩ := exists_cons_of_isPlainName h
  obtain ⟨hparen, hunary⟩ := unaryOf?_of_isNameChar hc
  have hread := readName?_append h hr
  rw [chars] at hn ⊢
  rw [hname] at hn hread ⊢
  rw [List.length_cons] at hn
  obtain ⟨m, rfl⟩ : ∃ m, n = m + 1 := ⟨n - 1, by omega⟩
  rw [List.cons_append] at hread ⊢
  rw [readPiece?, if_neg hparen, hunary, hread]
  exact hsuffixes m (by omega)

/-- A member is read after its object. -/
theorem ReadsSuffixes.member {object : Shape} (h : ReadsSuffixes object) {property : String}
    (hproperty : isPlainName property = true) : ReadsSuffixes (.member object property) := by
  intro r result k hr hsuffixes n hn
  rw [chars] at hn ⊢
  rw [List.length_append, List.length_cons] at hn
  rw [List.append_assoc, List.cons_append]
  refine h _ result (k + 1) rfl ?_ n (by omega)
  intro n hn
  obtain ⟨m, rfl⟩ : ∃ m, n = m + 1 := ⟨n - 1, by omega⟩
  rw [readSuffixes?, readName?_append hproperty hr]
  exact hsuffixes m (by omega)

/-- A call is read after its callee. -/
theorem ReadsSuffixes.call {callee : Shape} (h : ReadsSuffixes callee) {args : List Shape}
    (hargs : ReadsArgs args) : ReadsSuffixes (.call callee args) := by
  intro r result k hr hsuffixes n hn
  rw [chars] at hn ⊢
  simp only [List.length_append, List.length_cons, List.length_nil] at hn
  rw [List.append_assoc, List.cons_append, List.append_assoc, List.cons_append, List.nil_append]
  refine h _ result (k + 3 * (charsArgs args).length + 5) rfl ?_ n (by omega)
  intro n hn
  obtain ⟨m, rfl⟩ : ∃ m, n = m + 1 := ⟨n - 1, by omega⟩
  rw [readSuffixes?, hargs r m (by omega)]
  exact hsuffixes m (by omega)

/-- A prefix operator is read before its operand. -/
theorem ReadsPiece.unary {argument : Shape} (h : ReadsPiece argument) (op : UnaryOp) :
    ReadsPiece (.unary op argument) := by
  intro r hr n hn
  have hchars : (Shape.unary op argument).operandChars = op.text.toList ++ argument.operandChars :=
    (operandChars_eq rfl).trans (by rw [chars, operandChars])
  rw [hchars] at hn ⊢
  obtain ⟨c, hop, hparen, hunary⟩ : ∃ c, op.text.toList = [c] ∧ c ≠ '(' ∧ unaryOf? c = some op := by
    cases op
    · exact ⟨'-', rfl, by decide, rfl⟩
    · exact ⟨'+', rfl, by decide, rfl⟩
    · exact ⟨'!', rfl, by decide, rfl⟩
  rw [hop, List.length_append, List.length_singleton] at hn
  obtain ⟨m, rfl⟩ : ∃ m, n = m + 1 := ⟨n - 1, by omega⟩
  rw [hop, List.singleton_append, List.cons_append, readPiece?, if_neg hparen, hunary,
    h r hr m (by omega)]
  rfl

/-- A binary operation is read from its operands. -/
theorem readsExpr_binary {left right : Shape} (hl : ReadsPiece left) (hr : ReadsPiece right)
    (op : BinaryOp) : ReadsExpr (.binary op left right) := by
  intro r hend n hn
  rw [chars, ← operandChars, ← operandChars] at hn ⊢
  rw [length_join] at hn
  obtain ⟨m, rfl⟩ : ∃ m, n = m + 1 := ⟨n - 1, by omega⟩
  rw [join_append, readExpr?, hl _ rfl m (by omega)]
  simp only [Connective.read?_binary]
  rw [hr r (endsPiece_of_endsExpr hend) m (by omega)]
  rfl

/-- A logical operation is read from its operands. -/
theorem readsExpr_logical {left right : Shape} (hl : ReadsPiece left) (hr : ReadsPiece right)
    (op : LogicalOp) : ReadsExpr (.logical op left right) := by
  intro r hend n hn
  rw [chars, ← operandChars, ← operandChars] at hn ⊢
  rw [length_join] at hn
  obtain ⟨m, rfl⟩ : ∃ m, n = m + 1 := ⟨n - 1, by omega⟩
  rw [join_append, readExpr?, hl _ rfl m (by omega)]
  simp only [Connective.read?_logical]
  rw [hr r (endsPiece_of_endsExpr hend) m (by omega)]
  rfl

/-- An assignment is read from its target and its value. -/
theorem readsExpr_assign {target value : Shape} (ht : ReadsPiece target)
    (hplace : target.isCompound = false) (hv : ReadsExpr value) (op : AssignOp) :
    ReadsExpr (.assign op target value) := by
  intro r hend n hn
  have hchars := operandChars_eq hplace
  rw [chars, ← hchars] at hn ⊢
  rw [length_join] at hn
  obtain ⟨m, rfl⟩ : ∃ m, n = m + 1 := ⟨n - 1, by omega⟩
  rw [join_append, readExpr?, ht _ rfl m (by omega)]
  simp only [Connective.read?_assign]
  rw [hv r hend m (by omega)]
  rfl

/-- A conditional is read from its three operands. -/
theorem readsExpr_conditional {test consequent alternate : Shape} (ht : ReadsPiece test)
    (hc : ReadsPiece consequent) (ha : ReadsPiece alternate) :
    ReadsExpr (.conditional test consequent alternate) := by
  intro r hend n hn
  rw [chars, ← operandChars, ← operandChars, ← operandChars] at hn ⊢
  rw [length_join, length_join] at hn
  obtain ⟨m, rfl⟩ : ∃ m, n = m + 1 := ⟨n - 1, by omega⟩
  have hword : ∀ rest, Connective.read? ("?".toList ++ ' ' :: rest) = some (.conditional, rest) :=
    fun _ => rfl
  rw [join_append, join_append, readExpr?, ht _ rfl m (by omega)]
  simp only [hword]
  rw [hc _ rfl m (by omega)]
  show (readPiece? m (alternate.operandChars ++ r)).map _ = _
  rw [ha r (endsPiece_of_endsExpr hend) m (by omega)]
  rfl

/-- No arguments are read where a parenthesis follows. -/
theorem readsArgs_nil : ReadsArgs [] := by
  intro r n hn
  obtain ⟨m, rfl⟩ : ∃ m, n = m + 1 := ⟨n - 1, by omega⟩
  rfl

/-- An argument is tried as an expression, as it does not start with a parenthesis that closes. -/
theorem readArgs?_succ {s : Shape} (h : s.every isPlain = true) (n : Nat) (r : List Char) :
    readArgs? (n + 1) (s.chars ++ r) =
      match readExpr? n (s.chars ++ r) with
      | some (s, ')' :: rest) => some ([s], rest)
      | some (s, ',' :: ' ' :: rest) => (readArgs? n rest).map fun r => (s :: r.1, r.2)
      | _ => none := by
  obtain ⟨c, cs, hchars, hc⟩ := exists_cons_chars h
  have hne : c ≠ ')' := by
    rintro rfl
    exact absurd hc (by decide)
  rw [hchars, List.cons_append, readArgs?]
  intro rest heq
  exact hne (List.cons.inj heq).1

/-- Arguments are read one after the other. -/
theorem ReadsArgs.cons {s : Shape} (hs : ReadsExpr s) (hplain : s.every isPlain = true)
    {ss : List Shape} (hss : ReadsArgs ss) : ReadsArgs (s :: ss) := by
  intro r n hn
  obtain ⟨m, rfl⟩ : ∃ m, n = m + 1 := ⟨n - 1, by omega⟩
  cases ss with
  | nil =>
    rw [charsArgs] at hn ⊢
    rw [readArgs?_succ hplain, hs _ rfl m (by omega)]
    rfl
  | cons next rest =>
    rw [charsArgs] at hn ⊢
    simp only [List.length_append, List.length_cons] at hn
    rw [List.append_assoc, List.cons_append, List.cons_append, readArgs?_succ hplain,
      hs _ rfl m (by omega)]
    simp only
    rw [hss r m (by omega)]
    rfl

/-- Names and members are no operations. -/
theorem isCompound_of_isPlace {s : Shape} (h : s.isPlace = true) : s.isCompound = false := by
  cases s with
  | ident name => rfl
  | member object property => rfl
  | _ => cases h

mutual

/-- The text of a legible shape is read as that shape. -/
theorem reads : ∀ {s : Shape}, s.every isPlain = true → s.every isGrouped = true →
    s.every hasPlaceTarget = true → Reads s
  | .literal _, hplain, _, _ => by cases hplain
  | .construct _ _, hplain, _, _ => by cases hplain
  | .ident name, hplain, _, _ => (readsSuffixes_ident hplain).reads rfl
  | .member object property, hplain, hgrouped, htargets => by
    simp only [every, Bool.and_eq_true] at hplain hgrouped htargets
    have hobject := (reads hplain.2 hgrouped.2 htargets.2).suffixes hgrouped.1
    exact (hobject.member hplain.1).reads rfl
  | .call callee args, hplain, hgrouped, htargets => by
    simp only [every, Bool.and_eq_true] at hplain hgrouped htargets
    have hcallee := (reads hplain.2.1 hgrouped.2.1 htargets.2.1).suffixes hgrouped.1
    exact (hcallee.call (readsArgs hplain.2.2 hgrouped.2.2 htargets.2.2)).reads rfl
  | .binary op left right, hplain, hgrouped, htargets => by
    simp only [every, Bool.and_eq_true] at hplain hgrouped htargets
    have hleft := reads hplain.2.1 hgrouped.2.1 htargets.2.1
    have hright := reads hplain.2.2 hgrouped.2.2 htargets.2.2
    exact (readsExpr_binary hleft.piece hright.piece op).reads rfl rfl
  | .logical op left right, hplain, hgrouped, htargets => by
    simp only [every, Bool.and_eq_true] at hplain hgrouped htargets
    have hleft := reads hplain.2.1 hgrouped.2.1 htargets.2.1
    have hright := reads hplain.2.2 hgrouped.2.2 htargets.2.2
    exact (readsExpr_logical hleft.piece hright.piece op).reads rfl rfl
  | .assign op target value, hplain, hgrouped, htargets => by
    simp only [every, Bool.and_eq_true] at hplain hgrouped htargets
    have htarget := reads hplain.2.1 hgrouped.2.1 htargets.2.1
    have hvalue := reads hplain.2.2 hgrouped.2.2 htargets.2.2
    have hplace := isCompound_of_isPlace htargets.1
    exact (readsExpr_assign htarget.piece hplace hvalue.expr op).reads rfl rfl
  | .conditional test consequent alternate, hplain, hgrouped, htargets => by
    simp only [every, Bool.and_eq_true] at hplain hgrouped htargets
    have htest := reads hplain.2.1 hgrouped.2.1 htargets.2.1
    have hconsequent := reads hplain.2.2.1 hgrouped.2.2.1 htargets.2.2.1
    have halternate := reads hplain.2.2.2 hgrouped.2.2.2 htargets.2.2.2
    exact (readsExpr_conditional htest.piece hconsequent.piece halternate.piece).reads rfl rfl
  | .unary op argument, hplain, hgrouped, htargets => by
    simp only [every, Bool.and_eq_true] at hplain hgrouped htargets
    have hpiece := (reads hplain.2 hgrouped.2 htargets.2).piece.unary op
    exact ⟨nofun, hpiece, hpiece.expr rfl⟩

/-- The text of legible arguments is read as those arguments. -/
theorem readsArgs : ∀ {ss : List Shape}, everyArgs isPlain ss = true →
    everyArgs isGrouped ss = true → everyArgs hasPlaceTarget ss = true → ReadsArgs ss
  | [], _, _, _ => readsArgs_nil
  | s :: rest, hplain, hgrouped, htargets => by
    simp only [everyArgs, Bool.and_eq_true] at hplain hgrouped htargets
    have hs := reads hplain.1 hgrouped.1 htargets.1
    exact ReadsArgs.cons hs.expr hplain.1 (readsArgs hplain.2 hgrouped.2 htargets.2)

end

/-- The text of a legible shape is decoded to that shape. -/
theorem decode_chars {s : Shape} (hplain : s.every isPlain = true)
    (hgrouped : s.every isGrouped = true) (htargets : s.every hasPlaceTarget = true) :
    decode s.chars = some s := by
  have hread := (reads hplain hgrouped htargets).expr [] rfl (3 * s.chars.length + 3)
    (Nat.le_refl _)
  rw [List.append_nil] at hread
  rw [decode, hread]

end Shape

/-! ## Expressions with one text -/

/-- Expressions of names, members, calls and operators, from any two functions, have the same text
exactly when they have the same shape: where the names are plain, no value takes the place of a
part, and the objects of members and the callees of calls are themselves names, members or
calls. -/
theorem Function.embree_text_eq_iff {f₁ f₂ : Function} {injections₁ injections₂ : Injections}
    {registry₁ registry₂ : Registry} {t₁ t₂ : TypedFunction}
    (h₁ : f₁.infer injections₁ registry₁ = .ok t₁) (h₂ : f₂.infer injections₂ registry₂ = .ok t₂)
    {e₁ e₂ : TypedExpr} (he₁ : e₁ ∈ t₁.exprs) (he₂ : e₂ ∈ t₂.exprs)
    (hplain₁ : e₁.shape.every Shape.isPlain = true) (hplain₂ : e₂.shape.every Shape.isPlain = true)
    (hfolded₁ : ∀ x ∈ e₁.all, x.isFolded = false) (hfolded₂ : ∀ x ∈ e₂.all, x.isFolded = false)
    (hgrouped₁ : e₁.shape.every Shape.isGrouped = true)
    (hgrouped₂ : e₂.shape.every Shape.isGrouped = true) :
    ∃ text₁ text₂, Dialect.embree.expr e₁ = .ok (text₁, []) ∧
      Dialect.embree.expr e₂ = .ok (text₂, []) ∧ (text₁ = text₂ ↔ e₁.shape = e₂.shape) := by
  refine ⟨_, _, TypedExpr.embree_shape hfolded₁ hplain₁, TypedExpr.embree_shape hfolded₂ hplain₂,
    ?_, fun hshape => by rw [hshape]⟩
  intro htext
  have hchars : e₁.shape.chars = e₂.shape.chars := String.ofList_injective htext
  have hdecode₁ := Shape.decode_chars hplain₁ hgrouped₁ (every_hasPlaceTarget h₁ he₁)
  have hdecode₂ := Shape.decode_chars hplain₂ hgrouped₂ (every_hasPlaceTarget h₂ he₂)
  rw [hchars, hdecode₂] at hdecode₁
  exact (Option.some.inj hdecode₁).symm

namespace Sample

/-- Two colors. -/
def colors : Injections := ⟨[("a", .ofTy (.object .color)), ("b", .ofTy (.object .color))]⟩

/-- `function mix(a, b) { first; return second; }` -/
def mix (first second : Expr) : Function :=
  Bare.function "mix" ["a", "b"] [Bare.expr first, Bare.ret (some second)]

/-- What inference makes of such a function. -/
def typedMix (first second : TypedExpr) : TypedFunction where
  name := "mix"
  params := [⟨"a", .object .color, none⟩, ⟨"b", .object .color, none⟩]
  body := [.expr first, .ret (some second)]
  result := second.ty
  span := none

/-- `left op right` -/
def typedColors (op : ArithmeticOp) (left right : TypedExpr) : TypedExpr :=
  .binary (.arithmetic op) left right (mark (.object .color))

/-- The color of a name. -/
def typedColor (name : String) : TypedExpr := .ident name (mark (.object .color))

/-- `(a + b) * a` -/
def scaledSum : TypedExpr :=
  typedColors .mul (typedColors .add (typedColor "a") (typedColor "b")) (typedColor "a")

/-- `a + (b * a)` -/
def sumOfScaled : TypedExpr :=
  typedColors .add (typedColor "a") (typedColors .mul (typedColor "b") (typedColor "a"))

/-- `function mix(a, b) { (a + b) * a; return a + b * a; }` -/
def mixGrouped : Function :=
  mix
    (Bare.binary (.arithmetic .mul)
      (Bare.binary (.arithmetic .add) (Bare.ident "a") (Bare.ident "b")) (Bare.ident "a"))
    (Bare.binary (.arithmetic .add) (Bare.ident "a")
      (Bare.binary (.arithmetic .mul) (Bare.ident "b") (Bare.ident "a")))

/-- Two operations that differ in their grouping have different texts. -/
theorem grouped_colors_differ :
    mixGrouped.infer colors registry = .ok (typedMix scaledSum sumOfScaled) ∧
    scaledSum ∈ (typedMix scaledSum sumOfScaled).exprs ∧
    sumOfScaled ∈ (typedMix scaledSum sumOfScaled).exprs ∧
    ∃ text₁ text₂, Dialect.embree.expr scaledSum = .ok (text₁, []) ∧
      Dialect.embree.expr sumOfScaled = .ok (text₂, []) ∧ text₁ ≠ text₂ := by
  have hinfer : mixGrouped.infer colors registry = .ok (typedMix scaledSum sumOfScaled) := rfl
  have hfirst : scaledSum ∈ (typedMix scaledSum sumOfScaled).exprs := List.mem_cons_self ..
  have hsecond : sumOfScaled ∈ (typedMix scaledSum sumOfScaled).exprs := by
    refine List.mem_append_right scaledSum.all (List.mem_append_left [] ?_)
    exact List.mem_cons_self ..
  obtain ⟨text₁, text₂, htext₁, htext₂, hiff⟩ := Function.embree_text_eq_iff hinfer hinfer hfirst
    hsecond (by decide) (by decide) (by decide) (by decide) (by decide) (by decide)
  exact ⟨hinfer, hfirst, hsecond, text₁, text₂, htext₁, htext₂, fun heq => by cases hiff.1 heq⟩

/-- `(a + b).r` -/
def memberOfSum : TypedExpr :=
  .member (typedColors .add (typedColor "a") (typedColor "b")) "r" (mark .number)

/-- `a + b.r` -/
def sumWithMember : TypedExpr :=
  typedColors .add (typedColor "a") (.member (typedColor "b") "r" (mark .number))

/-- A member of a sum has the text of a sum with a member. -/
theorem member_of_sum_is_ambiguous :
    (mix (Bare.binary (.arithmetic .add) (Bare.ident "a") (Bare.member (Bare.ident "b") "r"))
      (Bare.member (Bare.binary (.arithmetic .add) (Bare.ident "a") (Bare.ident "b")) "r")).infer
        colors registry = .ok (typedMix sumWithMember memberOfSum) ∧
    (∀ e ∈ [sumWithMember, memberOfSum], e ∈ (typedMix sumWithMember memberOfSum).exprs ∧
      e.shape.every Shape.isPlain = true ∧ (∀ x ∈ e.all, x.ascription.value = none) ∧
      Dialect.embree.expr e = .ok ("a + b.r", [])) ∧
    sumWithMember.shape ≠ memberOfSum.shape := by
  refine ⟨rfl, ?_, nofun⟩
  intro e he
  rcases List.mem_cons.1 he with rfl | he
  · exact ⟨List.mem_cons_self .., by decide, by decide, rfl⟩
  · obtain rfl := List.mem_singleton.1 he
    refine ⟨?_, by decide, by decide, rfl⟩
    exact List.mem_append_right sumWithMember.all (List.mem_append_left [] (List.mem_cons_self ..))

end Sample

end Shader
