import Shader.Proofs.Lookup
import Shader.Typing.Builtin

/-!
# Finding entries by name and by kind

A registry is made from a list of entries, one after the other.  `Registry.Distinct` is what the
list must satisfy, and an entry is then found by its name and by its kind wherever it stands in the
list.

A registry can also be kept as two maps that are filled in step, from names to entries and from
kinds to names, so that an entry is found by its kind in two steps (`Registry.Index`).  An index of
a registry finds what the registry finds: `Registry.Index.Represents` relates the two, and is kept
by every entry that is added.

`Registry.entries_are_indexed` puts this together and tells the error of a list that is no registry.
-/

namespace Shader

/-! ## Entries with distinct keys -/

section Keys

variable {κ : Type} [DecidableEq κ] {key : Entry → κ} {entries : List Entry} {k : κ} {e : Entry}

/-- No entry is found under a key that none has. -/
theorem find?_key_eq_none_iff :
    entries.find? (fun e => key e == k) = none ↔ k ∉ entries.map key := by
  simp

/-- Among entries with distinct keys the one that is found under a key is the one that has it. -/
theorem find?_key_eq_some_iff (h : (entries.map key).Nodup) :
    entries.find? (fun e => key e == k) = some e ↔ e ∈ entries ∧ key e = k := by
  induction entries with
  | nil => simp
  | cons a rest ih =>
    rw [List.map_cons, List.nodup_cons] at h
    obtain ⟨hnew, hrest⟩ := h
    by_cases ha : key a = k
    · subst ha
      rw [List.find?_cons_of_pos (by simp), Option.some_inj, List.mem_cons]
      constructor
      · rintro rfl
        exact ⟨.inl rfl, rfl⟩
      · rintro ⟨rfl | he, hkey⟩
        · rfl
        · exact absurd (hkey ▸ List.mem_map_of_mem he) hnew
    · rw [List.find?_cons_of_neg (by simpa using ha), ih hrest, List.mem_cons]
      constructor
      · rintro ⟨he, hkey⟩
        exact ⟨.inr he, hkey⟩
      · rintro ⟨rfl | he, hkey⟩
        · exact absurd hkey ha
        · exact ⟨he, hkey⟩

/-- What is found among entries with distinct keys does not depend on their order. -/
theorem find?_key_eq_of_perm {entries' : List Entry} (hperm : entries'.Perm entries)
    (h' : (entries'.map key).Nodup) (h : (entries.map key).Nodup) :
    entries'.find? (fun e => key e == k) = entries.find? fun e => key e == k := by
  apply Option.ext
  intro e
  rw [find?_key_eq_some_iff h', find?_key_eq_some_iff h, hperm.mem_iff]

/-- What is found under a key after one more entry whose key is new. -/
theorem find?_key_concat (h : key e ∉ entries.map key) (k : κ) :
    (entries ++ [e]).find? (fun a => key a == k) =
      if k = key e then some e else entries.find? fun a => key a == k := by
  rw [List.find?_append]
  by_cases hk : k = key e
  · subst hk
    rw [find?_key_eq_none_iff.2 h]
    simp
  · have hsingle : [e].find? (fun a => key a == k) = none := by
      rw [find?_key_eq_none_iff]
      simpa using hk
    rw [hsingle, Option.or_none, if_neg hk]

end Keys

namespace Registry

/-- Entries of which no two have the same name or the same kind. -/
structure Distinct (entries : List Entry) : Prop where
  names : (entries.map Entry.name).Nodup
  kinds : (entries.map Entry.kind).Nodup

/-- The order of distinct entries does not matter. -/
theorem Distinct.perm {entries entries' : List Entry} (hperm : entries.Perm entries')
    (h : Distinct entries) : Distinct entries' :=
  ⟨(hperm.map _).nodup_iff.1 h.names, (hperm.map _).nodup_iff.1 h.kinds⟩

/-- Some of distinct entries are distinct. -/
theorem Distinct.sublist {entries entries' : List Entry} (hsub : entries'.Sublist entries)
    (h : Distinct entries) : Distinct entries' :=
  ⟨h.names.sublist (hsub.map _), h.kinds.sublist (hsub.map _)⟩

/-- An entry may be added to distinct ones when its name and its kind are new. -/
theorem distinct_concat_iff {entries : List Entry} {e : Entry} :
    Distinct (entries ++ [e]) ↔ Distinct entries ∧ e.name ∉ entries.map Entry.name ∧
      e.kind ∉ entries.map Entry.kind := by
  have hnodup : ∀ {κ : Type} (key : Entry → κ), ((entries ++ [e]).map key).Nodup ↔
      (entries.map key).Nodup ∧ key e ∉ entries.map key := by
    intro κ key
    rw [List.map_append, List.map_singleton, List.nodup_append]
    simp
  constructor
  · rintro ⟨hnames, hkinds⟩
    rw [hnodup] at hnames hkinds
    exact ⟨⟨hnames.1, hkinds.1⟩, hnames.2, hkinds.2⟩
  · rintro ⟨⟨hnames, hkinds⟩, hname, hkind⟩
    exact ⟨(hnodup _).2 ⟨hnames, hname⟩, (hnodup _).2 ⟨hkinds, hkind⟩⟩

/-! ## Adding entries -/

/-- An entry is refused for its name, else for its kind, and added otherwise. -/
theorem add_cases (r : Registry) (e : Entry) :
    (e.name ∈ r.entries.map Entry.name ∧ r.add e = .error (.duplicateName e.name)) ∨
    (e.name ∉ r.entries.map Entry.name ∧ ∃ first, r.byKind? e.kind = some first ∧
      r.add e = .error (.duplicateKind e.kind first.name e.name)) ∨
    (e.name ∉ r.entries.map Entry.name ∧ e.kind ∉ r.entries.map Entry.kind ∧
      r.add e = .ok ⟨r.entries ++ [e]⟩) := by
  unfold add
  cases hname : r.byName? e.name with
  | some found =>
    have hmem : e.name ∈ r.entries.map Entry.name := by
      rw [← byName?_name hname]
      exact List.mem_map_of_mem (List.mem_of_find?_eq_some hname)
    exact .inl ⟨hmem, rfl⟩
  | none =>
    have hnew : e.name ∉ r.entries.map Entry.name := find?_key_eq_none_iff.1 hname
    cases hkind : r.byKind? e.kind with
    | some first => exact .inr (.inl ⟨hnew, first, rfl, rfl⟩)
    | none => exact .inr (.inr ⟨hnew, find?_key_eq_none_iff.1 hkind, rfl⟩)

/-- Why an entry is refused after the given ones: its name is there, or else its kind. -/
inductive Refused (before : List Entry) (e : Entry) : RegistryError → Prop where
  | name : e.name ∈ before.map Entry.name → Refused before e (.duplicateName e.name)
  | kind {first : Entry} : e.name ∉ before.map Entry.name → first ∈ before → first.kind = e.kind →
      Refused before e (.duplicateKind e.kind first.name e.name)

/-- An entry is refused with the error that tells why. -/
theorem add_eq_error_iff {r : Registry} {e : Entry} {err : RegistryError}
    (h : Distinct r.entries) : r.add e = .error err ↔ Refused r.entries e err := by
  have hfirst : ∀ first, r.byKind? e.kind = some first ↔ first ∈ r.entries ∧ first.kind = e.kind :=
    fun _ => find?_key_eq_some_iff h.kinds
  rcases add_cases r e with ⟨hmem, hadd⟩ | ⟨hnew, first, hkind, hadd⟩ | ⟨hnew, hkind, hadd⟩
  · rw [hadd, Except.error.injEq]
    constructor
    · rintro rfl
      exact .name hmem
    · rintro (_ | ⟨hnew, -, -⟩)
      · rfl
      · exact absurd hmem hnew
  · rw [hadd, Except.error.injEq]
    constructor
    · rintro rfl
      obtain ⟨hmem, hsame⟩ := (hfirst first).1 hkind
      exact .kind hnew hmem hsame
    · rintro (hmem | @⟨other, -, hother, hsame⟩)
      · exact absurd hmem hnew
      · have heq : some first = some other := hkind.symm.trans ((hfirst other).2 ⟨hother, hsame⟩)
        rw [Option.some.inj heq]
  · rw [hadd]
    refine iff_of_false (by simp) ?_
    rintro (hmem | ⟨-, hmem, hsame⟩)
    · exact hnew hmem
    · exact hkind (hsame ▸ List.mem_map_of_mem hmem)

/-- Entries are added to distinct ones when all of them together are distinct. -/
theorem foldlM_add_eq_ok_iff {r r' : Registry} {entries : List Entry} (h : Distinct r.entries) :
    entries.foldlM add r = .ok r' ↔
      Distinct (r.entries ++ entries) ∧ r' = ⟨r.entries ++ entries⟩ := by
  induction entries generalizing r with
  | nil =>
    rw [List.append_nil, List.foldlM_nil]
    constructor
    · intro hr
      obtain rfl := Except.ok.inj hr
      exact ⟨h, rfl⟩
    · rintro ⟨-, rfl⟩
      rfl
  | cons e rest ih =>
    have hconcat : r.entries ++ e :: rest = (r.entries ++ [e]) ++ rest := by simp
    rw [List.foldlM_cons, hconcat]
    have hnew : Distinct ((r.entries ++ [e]) ++ rest) →
        e.name ∉ r.entries.map Entry.name ∧ e.kind ∉ r.entries.map Entry.kind := by
      intro hall
      exact (distinct_concat_iff.1 (hall.sublist (List.sublist_append_left _ _))).2
    rcases add_cases r e with ⟨hmem, hadd⟩ | ⟨-, first, hfirst, hadd⟩ | ⟨hname, hkind, hadd⟩
    · rw [hadd]
      exact iff_of_false (by rintro ⟨⟩) fun hall => (hnew hall.1).1 hmem
    · rw [hadd]
      refine iff_of_false (by rintro ⟨⟩) fun hall => ?_
      have hnone := find?_key_eq_none_iff.2 (hnew hall.1).2
      exact absurd (hfirst.symm.trans hnone) (Option.some_ne_none first)
    · rw [hadd]
      exact ih (distinct_concat_iff.2 ⟨h, hname, hkind⟩)

/-- A list of entries is a registry when they are distinct. -/
theorem ofEntries_eq_ok_iff {entries : List Entry} {r : Registry} :
    ofEntries entries = .ok r ↔ Distinct entries ∧ r = ⟨entries⟩ :=
  foldlM_add_eq_ok_iff ⟨List.nodup_nil, List.nodup_nil⟩

/-- The error of a list that is no registry is that of the first entry that is refused. -/
theorem ofEntries_eq_error_iff {entries : List Entry} {err : RegistryError} :
    ofEntries entries = .error err ↔
      ∃ before e after, entries = before ++ e :: after ∧ Distinct before ∧
        Refused before e err := by
  unfold ofEntries
  rw [foldlM_eq_error_iff]
  constructor
  · rintro ⟨before, e, after, r, hentries, hbefore, hadd⟩
    obtain ⟨hdistinct, rfl⟩ := ofEntries_eq_ok_iff.1 hbefore
    exact ⟨before, e, after, hentries, hdistinct, (add_eq_error_iff hdistinct).1 hadd⟩
  · rintro ⟨before, e, after, hentries, hdistinct, hrefused⟩
    exact ⟨before, e, after, ⟨before⟩, hentries, ofEntries_eq_ok_iff.2 ⟨hdistinct, rfl⟩,
      (add_eq_error_iff hdistinct).2 hrefused⟩

/-! ## Two maps filled in step -/

/-- Entries by name, and the names of entries by kind. -/
structure Index where
  entries : Table Entry
  names : Kind → Option String

namespace Index

/-- The index without entries. -/
def empty : Index := ⟨.empty, fun _ => none⟩

/-- The entry of a name. -/
def byName? (x : Index) (name : String) : Option Entry := x.entries.get? name

/-- The entry of a kind, which is found by its name. -/
def byKind? (x : Index) (kind : Kind) : Option Entry := (x.names kind).bind x.byName?

/-- The index with an entry in both maps. -/
def insert (x : Index) (e : Entry) : Index where
  entries := x.entries.insert e.name e
  names kind := if kind = e.kind then some e.name else x.names kind

/-- The index with one more entry, whose name and kind must be new. -/
def add (x : Index) (e : Entry) : Except RegistryError Index :=
  if x.entries.contains e.name then .error (.duplicateName e.name)
  else
    match x.names e.kind with
    | some first => .error (.duplicateKind e.kind first e.name)
    | none => .ok (x.insert e)

/-- The index of a list of entries. -/
def ofEntries (entries : List Entry) : Except RegistryError Index := entries.foldlM add empty

/-- `x.Represents r`: the names of the index lead to the entries of the registry, and its kinds to
their names. -/
structure Represents (x : Index) (r : Registry) : Prop where
  names_nodup : (r.entries.map Entry.name).Nodup
  byName? : ∀ name, x.entries.get? name = r.byName? name
  names : ∀ kind, x.names kind = (r.byKind? kind).map Entry.name

/-- An index finds by kind what the registry finds, as an entry is the one of its name. -/
theorem Represents.byKind? {x : Index} {r : Registry} (h : x.Represents r) (kind : Kind) :
    x.byKind? kind = r.byKind? kind := by
  rw [Index.byKind?, h.names]
  cases hkind : r.byKind? kind with
  | none => rfl
  | some e =>
    have hmem : e ∈ r.entries := List.mem_of_find?_eq_some hkind
    rw [Option.map_some, Option.bind_some, Index.byName?, h.byName?]
    exact (find?_key_eq_some_iff h.names_nodup).2 ⟨hmem, rfl⟩

/-- A new entry is added to both. -/
theorem Represents.insert {x : Index} {r : Registry} (h : x.Represents r) {e : Entry}
    (hname : e.name ∉ r.entries.map Entry.name) (hkind : e.kind ∉ r.entries.map Entry.kind) :
    (x.insert e).Represents ⟨r.entries ++ [e]⟩ where
  names_nodup := by
    rw [List.map_append, List.map_singleton, List.nodup_append]
    simpa using ⟨h.names_nodup, by simpa using hname⟩
  byName? name := by
    refine Eq.trans ?_ (find?_key_concat hname name).symm
    split
    · rename_i heq
      subst heq
      exact Table.get?_insert_self _ _ _
    · rename_i hne
      rw [← Registry.byName?, ← h.byName?]
      exact Table.get?_insert_of_ne _ hne e
  names kind := by
    rw [Registry.byKind?, find?_key_concat hkind, apply_ite (Option.map Entry.name),
      ← Registry.byKind?, ← h.names]
    rfl

/-- An entry is refused by both with the same error, or added to both. -/
theorem Represents.add {x : Index} {r : Registry} (h : x.Represents r) (e : Entry) :
    (∃ err, x.add e = .error err ∧ r.add e = .error err) ∨
      ∃ x' r', x.add e = .ok x' ∧ r.add e = .ok r' ∧ x'.Represents r' := by
  have hcontains : x.entries.contains e.name = (r.byName? e.name).isSome := by
    rw [Table.contains, h.byName?]
  rcases add_cases r e with ⟨hmem, hadd⟩ | ⟨hnew, first, hkind, hadd⟩ | ⟨hnew, hkind, hadd⟩
  · have hsome : (r.byName? e.name).isSome = true := by
      rw [Option.isSome_iff_ne_none]
      exact fun hnone => find?_key_eq_none_iff.1 hnone hmem
    refine .inl ⟨_, ?_, hadd⟩
    rw [Index.add, hcontains, hsome, if_pos rfl]
  · have hnone : r.byName? e.name = none := find?_key_eq_none_iff.2 hnew
    refine .inl ⟨_, ?_, hadd⟩
    rw [Index.add, hcontains, hnone, h.names, hkind]
    rfl
  · have hnone : r.byName? e.name = none := find?_key_eq_none_iff.2 hnew
    have hkindNone : r.byKind? e.kind = none := find?_key_eq_none_iff.2 hkind
    refine .inr ⟨x.insert e, _, ?_, hadd, h.insert hnew hkind⟩
    rw [Index.add, hcontains, hnone, h.names, hkindNone]
    rfl

/-- Entries are refused by both with the same error, or added to both. -/
theorem Represents.foldlM_add {x : Index} {r : Registry} (h : x.Represents r)
    (entries : List Entry) :
    (∃ err, entries.foldlM Index.add x = .error err ∧ entries.foldlM Registry.add r = .error err) ∨
      ∃ x' r', entries.foldlM Index.add x = .ok x' ∧ entries.foldlM Registry.add r = .ok r' ∧
        x'.Represents r' := by
  induction entries generalizing x r with
  | nil => exact .inr ⟨x, r, rfl, rfl, h⟩
  | cons e rest ih =>
    rw [List.foldlM_cons, List.foldlM_cons]
    rcases h.add e with ⟨err, hx, hr⟩ | ⟨x', r', hx, hr, h'⟩
    · exact .inl ⟨err, by rw [hx]; rfl, by rw [hr]; rfl⟩
    · rw [hx, hr]
      exact ih h'

/-- The index without entries represents the registry without entries. -/
theorem represents_empty : empty.Represents ⟨[]⟩ where
  names_nodup := List.nodup_nil
  byName? _ := rfl
  names _ := rfl

end Index

/-! ## Registries -/

/-- A list of entries is a registry when no two of them have the same name or the same kind.  Each
entry is then found by its name and by its kind, whatever the order of the list is.  The error of
any other list is that of the first entry that repeats an earlier name or, with a new name, an
earlier kind.  Two maps that are filled in step fail on the same lists with the same error, and else
find the same entries. -/
theorem entries_are_indexed (entries : List Entry) :
    ((∃ r, ofEntries entries = .ok r) ↔
      (entries.map Entry.name).Nodup ∧ (entries.map Entry.kind).Nodup) ∧
    (∀ r, ofEntries entries = .ok r →
      (∀ name e, r.byName? name = some e ↔ e ∈ entries ∧ e.name = name) ∧
      (∀ kind e, r.byKind? kind = some e ↔ e ∈ entries ∧ e.kind = kind) ∧
      ∀ permuted : List Entry, permuted.Perm entries → ∃ r', ofEntries permuted = .ok r' ∧
        (∀ name, r'.byName? name = r.byName? name) ∧ ∀ kind, r'.byKind? kind = r.byKind? kind) ∧
    (∀ err, ofEntries entries = .error err ↔
      ∃ before e after, entries = before ++ e :: after ∧
        ((before.map Entry.name).Nodup ∧ (before.map Entry.kind).Nodup) ∧ Refused before e err) ∧
    ((∃ err, Index.ofEntries entries = .error err ∧ ofEntries entries = .error err) ∨
      ∃ x r, Index.ofEntries entries = .ok x ∧ ofEntries entries = .ok r ∧
        (∀ name, x.byName? name = r.byName? name) ∧ ∀ kind, x.byKind? kind = r.byKind? kind) := by
  have hdistinct : ∀ entries, (entries.map Entry.name).Nodup ∧ (entries.map Entry.kind).Nodup ↔
      Distinct entries := fun _ => ⟨fun h => ⟨h.1, h.2⟩, fun h => ⟨h.names, h.kinds⟩⟩
  simp only [hdistinct]
  refine ⟨?_, ?_, fun _ => ofEntries_eq_error_iff, ?_⟩
  · simp [ofEntries_eq_ok_iff]
  · intro r hr
    obtain ⟨h, rfl⟩ := ofEntries_eq_ok_iff.1 hr
    refine ⟨fun _ _ => find?_key_eq_some_iff h.names, fun _ _ => find?_key_eq_some_iff h.kinds, ?_⟩
    intro permuted hperm
    have h' : Distinct permuted := h.perm hperm.symm
    refine ⟨⟨permuted⟩, ofEntries_eq_ok_iff.2 ⟨h', rfl⟩, ?_, ?_⟩
    · exact fun _ => find?_key_eq_of_perm hperm h'.names h.names
    · exact fun _ => find?_key_eq_of_perm hperm h'.kinds h.kinds
  · rcases Index.represents_empty.foldlM_add entries with herr | ⟨x, r, hx, hr, h⟩
    · exact .inl herr
    · exact .inr ⟨x, r, hx, hr, h.byName?, h.byKind?⟩

/-- The built-in objects are a registry. -/
example : ofEntries builtin.entries = .ok builtin := rfl

end Registry

end Shader
