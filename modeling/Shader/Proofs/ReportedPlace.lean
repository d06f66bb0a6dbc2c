import Mathlib
import Shader.Proofs.LinePosition
import Shader.Proofs.Loading
import Shader.Typing.Diagnostic

/-!
# The place that a diagnostic reports

A diagnostic gives the line and the column at which the span of its error starts.  Spans come from
documents, where any offset of 32 bits may stand, whether the source is that long or not.  So the
arithmetic of positions meets every offset up to the greatest one, and there it can overflow.

Of the spans that a document can give, one starts at the greatest offset, `Span.last`.
`TypeError.reported_places` says what is reported for each span and source: the position, except for
that span in a source without newlines, whose column is too large for a word, and in a source of
nothing but newlines, as many as a word can count, whose line is.  Then nothing is reported.
-/

namespace Shader

namespace Span

/-- The empty span at the greatest offset. -/
def last : Span := ⟨4294967295, 4294967295⟩

variable {fields : List (String × Json)} {span : Span}

/-- Two offsets that make a span are in order. -/
theorem le_of_ofOffsets? {start stop : UInt32} (h : ofOffsets? start stop = some span) :
    span.start ≤ span.stop := by
  unfold ofOffsets? at h
  split at h
  · cases h
    assumption
  · cases h

/-- The span that a document gives a node is in order. -/
theorem le_of_ofFields? (h : ofFields? fields = some span) : span.start ≤ span.stop := by
  have hends : ofEnds? fields = some span → span.start ≤ span.stop := by
    intro h
    obtain ⟨start, -, h⟩ := Option.bind_eq_some_iff.1 h
    obtain ⟨stop, -, h⟩ := Option.bind_eq_some_iff.1 h
    exact le_of_ofOffsets? h
  unfold ofFields? at h
  split at h
  · split at h
    · exact le_of_ofOffsets? h
    · exact hends h
  · exact hends h

/-- A document can give a node every span that is in order. -/
theorem exists_ofFields?_iff :
    (∃ fields, ofFields? fields = some span) ↔ span.start ≤ span.stop := by
  constructor
  · rintro ⟨fields, h⟩
    exact le_of_ofFields? h
  · intro hle
    refine ⟨[("range", .array [.ofOffset span.start, .ofOffset span.stop])], ?_⟩
    rw [ofFields?_range rfl (Json.offset?_ofOffset _) (Json.offset?_ofOffset _)]
    exact if_pos hle

/-- Among the spans in order one starts at the greatest offset. -/
theorem eq_last_iff (h : span.start ≤ span.stop) : span = last ↔ span.start.toNat = 2 ^ 32 - 1 := by
  obtain ⟨start, stop⟩ := span
  have hle : start.toNat ≤ stop.toNat := UInt32.le_iff_toNat_le.1 h
  have hlt := stop.toNat_lt
  have hlast : (4294967295 : UInt32).toNat = 2 ^ 32 - 1 := rfl
  rw [last, mk.injEq, ← UInt32.toNat_inj, ← UInt32.toNat_inj, hlast]
  show _ ↔ start.toNat = _
  omega

end Span

namespace TypeError

open LineIndex

variable {e : TypeError} {source file : String} {span : Span}

/-- The place of an error is made of the position of its start. -/
theorem placeJson_eq_map (e : TypeError) (source file : String) (span : Span) :
    ∃ wrap : UInt32 × UInt32 → Json,
      (∀ position, (wrap position).field? "line" = some (.int position.1.toNat) ∧
        (wrap position).field? "column" = some (.int position.2.toNat)) ∧
      e.placeJson (some source) file span =
        ((ofSource source).position span.start).map wrap := by
  refine ⟨fun position => .object ([("file", .string file), ("start", .int span.start.toNat),
    ("end", .int span.stop.toNat), ("label", .string e.fault.label)] ++
    [("line", .int position.1.toNat), ("column", .int position.2.toNat)]),
    fun position => ⟨rfl, rfl⟩, ?_⟩
  have hfields : placeFields span (some source) = ((ofSource source).position span.start).map
      fun position => [("line", .int position.1.toNat), ("column", .int position.2.toNat)] := by
    rw [placeFields]
    cases (ofSource source).position span.start with
    | error overflow => rfl
    | ok position => rfl
  rw [placeJson, hfields]
  cases (ofSource source).position span.start with
  | error overflow => rfl
  | ok position => rfl

/-- A diagnostic with a span is made of one place. -/
theorem toJson_eq_map (he : e.span = some span) (source : Option String) (file : String) :
    ∃ wrap : Json → Json,
      (∀ place, (wrap place).field? "spans" = some (.array [place])) ∧
      e.toJson source file = (e.placeJson source file span).map wrap := by
  refine ⟨fun place => .object [("code", .string e.fault.code), ("severity", .string "error"),
    ("message", .string e.fault.message), ("file", .string file), ("spans", .array [place]),
    ("help", (e.fault.help?.map Json.string).getD .null)], fun place => rfl, ?_⟩
  unfold toJson
  rw [he, Option.toList_some, List.mapM_cons, List.mapM_nil]
  cases e.placeJson source file span with
  | error overflow => rfl
  | ok place => rfl

/-- A diagnostic with a span and a source is made of the position of the start of the span. -/
theorem toJson_eq_position (he : e.span = some span) (source file : String) :
    ∃ wrap : UInt32 × UInt32 → Json,
      (∀ position, ∃ place : Json, (wrap position).field? "spans" = some (.array [place]) ∧
        place.field? "line" = some (.int position.1.toNat) ∧
        place.field? "column" = some (.int position.2.toNat)) ∧
      e.toJson (some source) file = ((ofSource source).position span.start).map wrap := by
  obtain ⟨wrapPlace, hplace, hplaceJson⟩ := e.placeJson_eq_map source file span
  obtain ⟨wrap, hspans, htoJson⟩ := toJson_eq_map he (some source) file
  refine ⟨wrap ∘ wrapPlace, fun position => ⟨wrapPlace position, hspans _, hplace position⟩, ?_⟩
  rw [htoJson, hplaceJson]
  cases (ofSource source).position span.start with
  | error overflow => rfl
  | ok position => rfl

/-- What a diagnostic reports for a span that a document can give and a source of fewer than
`2 ^ 32` bytes.  There is nothing to report exactly when a sum overflows, and this happens for one
span, the empty one at the greatest offset, when the source has no newline or consists of
`2 ^ 32 - 1` newlines.  No difference is below zero.  Otherwise the line and the column that are
reported are exact, and so they are at least one. -/
theorem reported_places (source : String) (hsize : source.utf8ByteSize < 2 ^ 32) {span : Span}
    (hspan : ∃ fields, Span.ofFields? fields = some span) (e : TypeError) (he : e.span = some span)
    (file : String) :
    (∀ overflow, e.toJson (some source) file = .error overflow ↔
      overflow = .add ∧ span = .last ∧ (newline ∉ source.toUTF8.toList ∨
        source.toUTF8.toList = List.replicate (2 ^ 32 - 1) newline)) ∧
    ∀ v, e.toJson (some source) file = .ok v → ∃ (place : Json) (line column : Nat),
      v.field? "spans" = some (.array [place]) ∧
      place.field? "line" = some (.int line) ∧ place.field? "column" = some (.int column) ∧
      line = 1 + (newlinesBefore source span.start.toNat).length ∧
      startOf source span.start.toNat ≤ span.start.toNat ∧
      column = span.start.toNat - startOf source span.start.toNat + 1 := by
  obtain ⟨wrap, hwrap, htoJson⟩ := toJson_eq_position he source file
  rw [htoJson]
  constructor
  · intro overflow
    have hlast := Span.eq_last_iff (Span.exists_ofFields?_iff.1 hspan)
    have hposition : ((ofSource source).position span.start).map wrap = .error overflow ↔
        (ofSource source).position span.start = .error overflow := by
      cases (ofSource source).position span.start <;> simp [Except.map]
    rw [hposition, position_eq_error_iff hsize, LineOverflows, ColumnOverflows, ← hlast,
      ← and_or_left, or_comm]
  · intro v hv
    cases hposition : (ofSource source).position span.start with
    | error overflow =>
      rw [hposition] at hv
      cases hv
    | ok position =>
      rw [hposition] at hv
      cases hv
      obtain ⟨place, hspans, hline, hcolumn⟩ := hwrap position
      obtain ⟨hlineIs, hcolumnIs⟩ := (position_eq_ok_iff hsize).1 hposition
      exact ⟨place, _, _, hspans, hline, hcolumn, hlineIs, startOf_le source _, hcolumnIs⟩

end TypeError

namespace Sample

/-- A name that is not found, at the fourth byte of a text. -/
def unresolvedC : TypeError := ⟨.unresolvedIdentifier "c", some ⟨3, 4⟩⟩

/-- The first byte of the second line is reported as such. -/
theorem unresolvedC_is_reported :
    Span.ofFields? [("start", .int 3), ("end", .int 4)] = some ⟨3, 4⟩ ∧
    ∃ (v place : Json) (line column : Nat), unresolvedC.toJson (some "ab\ncd") "x.js" = .ok v ∧
      v.field? "spans" = some (.array [place]) ∧
      place.field? "line" = some (.int line) ∧ place.field? "column" = some (.int column) ∧
      line = 2 ∧ column = 1 := by
  have hspan : Span.ofFields? [("start", .int 3), ("end", .int 4)] = some ⟨3, 4⟩ := rfl
  obtain ⟨hfails, hreports⟩ :=
    TypeError.reported_places "ab\ncd" (by decide +kernel) ⟨_, hspan⟩ unresolvedC rfl "x.js"
  cases hv : unresolvedC.toJson (some "ab\ncd") "x.js" with
  | error overflow => exact absurd ((hfails overflow).1 hv).2.1 (by decide)
  | ok v =>
    obtain ⟨place, line, column, hspans, hline, hcolumn, hlineIs, -, hcolumnIs⟩ := hreports v hv
    have hlineTwo : line = 2 := hlineIs.trans (by decide +kernel)
    have hcolumnOne : column = 1 := hcolumnIs.trans (by decide +kernel)
    exact ⟨hspan, v, place, line, column, rfl, hspans, hline, hcolumn, hlineTwo, hcolumnOne⟩

/-- A node may be placed at the greatest offset, and an error there is not reported. -/
theorem last_span_is_not_reported :
    Span.ofFields? [("type", .string "Identifier"), ("name", .string "q"),
      ("range", .array [.int 4294967295, .int 4294967295])] = some .last ∧
    "q;".utf8ByteSize < 2 ^ 32 ∧
    (⟨.unresolvedIdentifier "q", some .last⟩ : TypeError).toJson (some "q;") "x.js" =
      .error .add := by
  have hposition : (LineIndex.ofSource "q;").position Span.last.start = .error .add := by
    decide +kernel
  obtain ⟨wrap, -, htoJson⟩ := TypeError.toJson_eq_position
    (e := ⟨.unresolvedIdentifier "q", some .last⟩) rfl "q;" "x.js"
  rw [hposition] at htoJson
  exact ⟨rfl, by decide +kernel, htoJson⟩

end Sample

end Shader
