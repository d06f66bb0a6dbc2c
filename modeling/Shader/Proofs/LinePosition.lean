import Mathlib
import Shader.Proofs.Lookup
import Shader.Source.Lines

/-!
# The position of an offset

The line and the column of an offset are told by the newlines before it: their number gives the
line, and the last of them gives the start of the line.  The line index computes both by a scan of
the text and a search among the starts of lines, and it computes them in 32-bit words.

`LineIndex.position_eq` says that the search finds what the newlines tell, so an offset has a
position exactly when its line and its column are words (`LineIndex.position_eq_ok_iff`).  The two
additions of one are the only steps that may overflow, and only at the greatest offset:
`LineOverflows` and `ColumnOverflows` are the texts for which they do.
`LineIndex.position_is_exact` is the result, with the order of positions.
-/

namespace Shader

/-! ## Arithmetic of words -/

namespace Word

variable {a b c : UInt32}

/-- The sum of two words is the word of their sum. -/
theorem add_eq_ok_iff : add a b = .ok c ↔ c.toNat = a.toNat + b.toNat := by
  have hc := c.toNat_lt
  have hsize : UInt32.size = 2 ^ 32 := rfl
  unfold add
  split
  · rename_i hfits
    rw [Except.ok.injEq, ← UInt32.toNat_inj, UInt32.toNat_add, Nat.mod_eq_of_lt (by omega), eq_comm]
  · simp only [reduceCtorEq, false_iff]
    omega

/-- The difference of two words is the word that is missing to the greater one. -/
theorem subtract_eq_ok_iff : subtract a b = .ok c ↔ c.toNat + b.toNat = a.toNat := by
  unfold subtract
  split
  · rename_i hle
    have hnumbers := UInt32.le_iff_toNat_le.1 hle
    rw [Except.ok.injEq, ← UInt32.toNat_inj, UInt32.toNat_sub_of_le _ _ hle]
    omega
  · rename_i hle
    rw [UInt32.le_iff_toNat_le] at hle
    simp only [reduceCtorEq, false_iff]
    omega

/-- A sum fails because it needs more bits. -/
theorem eq_add_of_add_eq_error {overflow : Overflow} (h : add a b = .error overflow) :
    overflow = .add := by
  unfold add at h
  split at h
  · cases h
  · exact (Except.error.inj h).symm

end Word

namespace LineIndex

/-! ## Lines and columns as numbers -/

/-- The offsets of the newlines of a text before an offset, in order. -/
def newlinesBefore (source : String) (offset : Nat) : List Nat :=
  (List.range offset).filter fun i => decide (source.toUTF8.toList[i]? = some newline)

/-- The line of an offset. -/
def lineOf (source : String) (offset : Nat) : Nat := 1 + (newlinesBefore source offset).length

/-- The start of the line of an offset: just after the last newline before it. -/
def startOf (source : String) (offset : Nat) : Nat :=
  match (newlinesBefore source offset).getLast? with
  | some i => i + 1
  | none => 0

/-- The column of an offset. -/
def columnOf (source : String) (offset : Nat) : Nat := offset - startOf source offset + 1

variable {source : String} {offset : Nat}

/-- A newline before an offset is a byte of the text. -/
theorem mem_newlinesBefore_iff {i : Nat} :
    i ∈ newlinesBefore source offset ↔
      i < offset ∧ source.toUTF8.toList[i]? = some newline := by
  simp [newlinesBefore]

/-- The newlines before an offset are listed in order. -/
theorem newlinesBefore_pairwise (source : String) (offset : Nat) :
    (newlinesBefore source offset).Pairwise (· < ·) :=
  List.pairwise_lt_range.filter _

/-- Before an offset there are no more newlines than bytes. -/
theorem length_newlinesBefore_le (source : String) (offset : Nat) :
    (newlinesBefore source offset).length ≤ offset := by
  have hle := List.length_filter_le
    (fun i => decide (source.toUTF8.toList[i]? = some newline)) (List.range offset)
  rwa [List.length_range] at hle

/-- The newlines before a greater offset are those before the smaller one, and those in between. -/
theorem newlinesBefore_add (source : String) (a k : Nat) :
    ∃ between, newlinesBefore source (a + k) = newlinesBefore source a ++ between ∧
      ∀ i ∈ between, a ≤ i := by
  refine ⟨((List.range k).map (a + ·)).filter
    fun i => decide (source.toUTF8.toList[i]? = some newline), ?_, ?_⟩
  · rw [newlinesBefore, List.range_add, List.filter_append, newlinesBefore]
  · intro i hi
    obtain ⟨j, -, rfl⟩ := List.mem_map.1 (List.mem_of_mem_filter hi)
    exact Nat.le_add_right a j

/-- A line starts at or before the offsets in it. -/
theorem startOf_le (source : String) (offset : Nat) : startOf source offset ≤ offset := by
  unfold startOf
  split
  · rename_i i hlast
    have hmem : i ∈ newlinesBefore source offset := List.mem_of_getLast? hlast
    exact (mem_newlinesBefore_iff.1 hmem).1
  · exact Nat.zero_le offset

/-- A greater offset is on a later line, or in a later column of the same line. -/
theorem place_lt (source : String) {a b : Nat} (h : a < b) :
    lineOf source a < lineOf source b ∨
      lineOf source a = lineOf source b ∧ columnOf source a < columnOf source b := by
  obtain ⟨k, rfl⟩ := Nat.exists_eq_add_of_lt h
  obtain ⟨between, hb, -⟩ := newlinesBefore_add source a (k + 1)
  rw [← Nat.add_assoc] at hb
  cases between with
  | nil =>
    rw [List.append_nil] at hb
    have hstart : startOf source (a + k + 1) = startOf source a := by rw [startOf, startOf, hb]
    have hle := startOf_le source a
    refine .inr ⟨by rw [lineOf, lineOf, hb], ?_⟩
    rw [columnOf, columnOf, hstart]
    omega
  | cons i between =>
    refine .inl ?_
    rw [lineOf, lineOf, hb, List.length_append, List.length_cons]
    omega

/-! ## The starts of lines -/

/-- The starts of the lines up to that of an offset. -/
def startsUpTo (source : String) (offset : Nat) : List Nat :=
  0 :: (newlinesBefore source offset).map (· + 1)

/-- There are as many of them as the line of the offset says. -/
theorem length_startsUpTo (source : String) (offset : Nat) :
    (startsUpTo source offset).length = lineOf source offset := by
  rw [startsUpTo, List.length_cons, List.length_map, lineOf, Nat.add_comm]

/-- The last of them is the start of the line of the offset. -/
theorem getLast?_startsUpTo (source : String) (offset : Nat) :
    (startsUpTo source offset).getLast? = some (startOf source offset) := by
  unfold startsUpTo startOf
  rw [List.getLast?_cons, List.getLast?_map]
  cases (newlinesBefore source offset).getLast? <;> rfl

/-- They are at or before the offset. -/
theorem le_of_mem_startsUpTo {start : Nat} (h : start ∈ startsUpTo source offset) :
    start ≤ offset := by
  rcases List.mem_cons.1 h with rfl | h
  · exact Nat.zero_le offset
  · obtain ⟨i, hi, rfl⟩ := List.mem_map.1 h
    exact (mem_newlinesBefore_iff.1 hi).1

/-- The scan of a text meets its newlines in order. -/
theorem afterNewlines_eq (bytes : List UInt8) (first : Nat) :
    afterNewlines bytes first =
      ((List.range bytes.length).filter fun i => decide (bytes[i]? = some newline)).map
        fun i => first + i + 1 := by
  induction bytes generalizing first with
  | nil => rfl
  | cons b bytes ih =>
    have hlater : ∀ i : Nat, first + 1 + i + 1 = first + (i + 1) + 1 := by omega
    rw [afterNewlines, ih, List.length_cons, List.range_succ_eq_map, List.filter_cons,
      List.filter_map, List.getElem?_cons_zero]
    by_cases hb : b = newline
    · simp [hb, Function.comp_def, hlater]
    · simp [hb, Function.comp_def, hlater]

/-- Listing bytes from one of them on adds those that are left. -/
theorem toList_loop_eq (bytes : ByteArray) (i : Nat) (read : List UInt8) :
    ByteArray.toList.loop bytes i read = read.reverse ++ bytes.data.toList.drop i := by
  have hsize : bytes.data.toList.length = bytes.size := rfl
  induction hleft : bytes.size - i generalizing i read with
  | zero =>
    rw [ByteArray.toList.loop, if_neg (by omega), List.drop_eq_nil_of_le (by omega),
      List.append_nil]
  | succ left ih =>
    have hi : i < bytes.size := by omega
    have hbyte : bytes.get! i = bytes.data[i] := by
      change bytes.data[i]! = _
      exact getElem!_pos bytes.data i hi
    have hdrop : bytes.data.toList.drop i = bytes.data[i] :: bytes.data.toList.drop (i + 1) :=
      List.drop_eq_getElem_cons hi
    rw [ByteArray.toList.loop, if_pos hi, ih (i + 1) _ (by omega), hbyte, hdrop, List.reverse_cons,
      List.append_assoc, List.singleton_append]

/-- The list of bytes of an array. -/
theorem toList_eq (bytes : ByteArray) : bytes.toList = bytes.data.toList := by
  rw [ByteArray.toList, toList_loop_eq, List.reverse_nil, List.nil_append, List.drop_zero]

/-- The number of bytes of a text. -/
theorem length_toList_toUTF8 (source : String) :
    source.toUTF8.toList.length = source.utf8ByteSize := by
  rw [toList_eq]
  exact String.size_toByteArray

/-- Behind the end of a text there are no newlines. -/
theorem newlinesBefore_of_le (h : source.utf8ByteSize ≤ offset) :
    newlinesBefore source offset = newlinesBefore source source.utf8ByteSize := by
  obtain ⟨k, rfl⟩ := Nat.exists_eq_add_of_le h
  obtain ⟨between, hadd, hbetween⟩ := newlinesBefore_add source source.utf8ByteSize k
  have hnone : between = [] := by
    rw [List.eq_nil_iff_forall_not_mem]
    intro i hi
    have hmem : i ∈ newlinesBefore source (source.utf8ByteSize + k) := by
      rw [hadd]
      exact List.mem_append_right _ hi
    obtain ⟨hlt, -⟩ := List.getElem?_eq_some_iff.1 (mem_newlinesBefore_iff.1 hmem).2
    rw [length_toList_toUTF8] at hlt
    exact absurd (hbetween i hi) (Nat.not_le.2 hlt)
  rw [hadd, hnone, List.append_nil]

/-- The newlines of a text are those before an offset and those from it on. -/
theorem newlinesBefore_split (source : String) (offset : Nat) :
    ∃ later, newlinesBefore source source.utf8ByteSize = newlinesBefore source offset ++ later ∧
      ∀ i ∈ later, offset ≤ i := by
  rcases Nat.le_total offset source.utf8ByteSize with h | h
  · obtain ⟨k, hk⟩ := Nat.exists_eq_add_of_le h
    rw [hk]
    exact newlinesBefore_add source offset k
  · exact ⟨[], by rw [newlinesBefore_of_le h, List.append_nil], by simp⟩

/-- The index of a text holds the starts of all its lines. -/
theorem starts_ofSource (source : String) :
    (ofSource source).starts = (startsUpTo source source.utf8ByteSize).map Nat.toUInt32 := by
  rw [ofSource, afterNewlines_eq, length_toList_toUTF8, startsUpTo, List.map_cons]
  simp only [Nat.zero_add]
  rfl

/-! ## What the search finds -/

/-- A number of 32 bits is the number of its word. -/
theorem toNat_toUInt32 {n : Nat} (hn : n < 2 ^ 32) : n.toUInt32.toNat = n := by
  rw [Nat.toUInt32_eq, UInt32.toNat_ofNat', Nat.mod_eq_of_lt hn]

/-- A number of 32 bits is at most a word when it is at most the word's number. -/
theorem toUInt32_le_iff {n : Nat} (hn : n < 2 ^ 32) {w : UInt32} :
    n.toUInt32 ≤ w ↔ n ≤ w.toNat := by
  rw [UInt32.le_iff_toNat_le, toNat_toUInt32 hn]

/-- As words, too, a line starts at or before the offsets in it. -/
theorem startOf_toUInt32_le (source : String) (w : UInt32) :
    (startOf source w.toNat).toUInt32 ≤ w := by
  have hle := startOf_le source w.toNat
  rwa [toUInt32_le_iff (Nat.lt_of_le_of_lt hle w.toNat_lt)]

/-- The starts of lines in an index are those up to the line of an offset, and greater ones. -/
theorem starts_split (hsize : source.utf8ByteSize < 2 ^ 32) (w : UInt32) :
    ∃ later, (ofSource source).starts = (startsUpTo source w.toNat).map Nat.toUInt32 ++ later ∧
      ∀ start ∈ later, ¬ start ≤ w := by
  obtain ⟨later, hsplit, hlater⟩ := newlinesBefore_split source w.toNat
  refine ⟨(later.map (· + 1)).map Nat.toUInt32, ?_, ?_⟩
  · rw [starts_ofSource, startsUpTo, hsplit, List.map_append, ← List.cons_append, List.map_append,
      startsUpTo]
  · intro start hstart
    obtain ⟨n, hn, rfl⟩ := List.mem_map.1 hstart
    obtain ⟨i, hi, rfl⟩ := List.mem_map.1 hn
    have hmem : i ∈ newlinesBefore source source.utf8ByteSize := by
      rw [hsplit]
      exact List.mem_append_right _ hi
    have hbound : i < source.utf8ByteSize := (mem_newlinesBefore_iff.1 hmem).1
    rw [toUInt32_le_iff (by omega)]
    have := hlater i hi
    omega

/-- The starts at or before an offset are those up to its line. -/
theorem takeWhile_starts (hsize : source.utf8ByteSize < 2 ^ 32) (w : UInt32) :
    (ofSource source).starts.takeWhile (fun start => decide (start ≤ w)) =
      (startsUpTo source w.toNat).map Nat.toUInt32 := by
  obtain ⟨later, hsplit, hlater⟩ := starts_split hsize w
  have hbefore : ∀ start ∈ (startsUpTo source w.toNat).map Nat.toUInt32,
      decide (start ≤ w) = true := by
    intro start hstart
    obtain ⟨n, hn, rfl⟩ := List.mem_map.1 hstart
    have hle := le_of_mem_startsUpTo hn
    rw [decide_eq_true_iff, toUInt32_le_iff (Nat.lt_of_le_of_lt hle w.toNat_lt)]
    exact hle
  have hnone : later.takeWhile (fun start => decide (start ≤ w)) = [] := by
    cases later with
    | nil => rfl
    | cons start later =>
      rw [List.takeWhile_cons_of_neg]
      simpa using hlater start List.mem_cons_self
  rw [hsplit, List.takeWhile_append_of_pos hbefore, hnone, List.append_nil]

/-- The start that is found is the start of the line of the offset. -/
theorem getElem?_starts (hsize : source.utf8ByteSize < 2 ^ 32) (w : UInt32) :
    (ofSource source).starts[(newlinesBefore source w.toNat).length]? =
      some (startOf source w.toNat).toUInt32 := by
  obtain ⟨later, hsplit, -⟩ := starts_split hsize w
  have hlength : ((startsUpTo source w.toNat).map Nat.toUInt32).length =
      (newlinesBefore source w.toNat).length + 1 := by
    rw [List.length_map, length_startsUpTo, lineOf, Nat.add_comm]
  have hlast : ((startsUpTo source w.toNat).map Nat.toUInt32).getLast? =
      some (startOf source w.toNat).toUInt32 := by
    rw [List.getLast?_map, getLast?_startsUpTo, Option.map_some]
  rw [hsplit, List.getElem?_append_left (by omega), ← hlast, List.getLast?_eq_getElem?, hlength,
    Nat.add_sub_cancel]

/-- The index computes the position from the newlines before the offset. -/
theorem position_eq (hsize : source.utf8ByteSize < 2 ^ 32) (w : UInt32) :
    (ofSource source).position w =
      Word.add (newlinesBefore source w.toNat).length.toUInt32 1 >>= fun line =>
        Word.subtract w (startOf source w.toNat).toUInt32 >>= fun distance =>
          Word.add distance 1 >>= fun column => .ok (line, column) := by
  have hline : ((ofSource source).starts.takeWhile fun start => decide (start ≤ w)).length - 1 =
      (newlinesBefore source w.toNat).length := by
    rw [takeWhile_starts hsize, List.length_map, length_startsUpTo, lineOf, Nat.add_sub_cancel_left]
  rw [position, hline, List.getD_eq_getElem?_getD, getElem?_starts hsize, Option.getD_some]
  rfl

/-- The starts of lines in an index are in order, which is what a search by halves relies on. -/
theorem starts_pairwise (hsize : source.utf8ByteSize < 2 ^ 32) :
    (ofSource source).starts.Pairwise (· < ·) := by
  have hnumbers : (startsUpTo source source.utf8ByteSize).Pairwise (· < ·) := by
    rw [startsUpTo, List.pairwise_cons, List.pairwise_map]
    refine ⟨?_, (newlinesBefore_pairwise source _).imp Nat.succ_lt_succ⟩
    intro start hstart
    obtain ⟨i, -, rfl⟩ := List.mem_map.1 hstart
    exact Nat.succ_pos i
  rw [starts_ofSource, List.pairwise_map]
  refine hnumbers.imp_of_mem ?_
  intro a b ha hb hab
  have ha := le_of_mem_startsUpTo ha
  have hb := le_of_mem_startsUpTo hb
  rw [UInt32.lt_iff_toNat_lt, toNat_toUInt32 (by omega), toNat_toUInt32 (by omega)]
  exact hab

/-! ## Positions in words -/

/-- An offset has the position whose words are its line and its column. -/
theorem position_eq_ok_iff (hsize : source.utf8ByteSize < 2 ^ 32) {w : UInt32}
    {position : UInt32 × UInt32} :
    (ofSource source).position w = .ok position ↔
      position.1.toNat = lineOf source w.toNat ∧ position.2.toNat = columnOf source w.toNat := by
  have hcount : (newlinesBefore source w.toNat).length.toUInt32.toNat =
      (newlinesBefore source w.toNat).length :=
    toNat_toUInt32 (Nat.lt_of_le_of_lt (length_newlinesBefore_le source _) w.toNat_lt)
  have hle := startOf_le source w.toNat
  have hstart : (startOf source w.toNat).toUInt32.toNat = startOf source w.toNat :=
    toNat_toUInt32 (Nat.lt_of_le_of_lt hle w.toNat_lt)
  have hone : (1 : UInt32).toNat = 1 := rfl
  obtain ⟨line, column⟩ := position
  simp only [position_eq hsize, bind_eq_ok_iff, Word.add_eq_ok_iff, Word.subtract_eq_ok_iff,
    Except.ok.injEq, Prod.mk.injEq, hcount, hstart, hone, lineOf, columnOf]
  constructor
  · rintro ⟨line, hline, distance, hdistance, column, hcolumn, rfl, rfl⟩
    omega
  · rintro ⟨hline, hcolumn⟩
    have hdistance : (w - (startOf source w.toNat).toUInt32).toNat =
        w.toNat - startOf source w.toNat := by
      rw [UInt32.toNat_sub_of_le _ _ (startOf_toUInt32_le source w), hstart]
    refine ⟨line, by omega, w - (startOf source w.toNat).toUInt32, ?_, column, ?_, rfl, rfl⟩
    · rw [hdistance]
      omega
    · rw [hdistance]
      omega

/-- Lines are counted from one, and there are at most `2 ^ 32` of them. -/
theorem lineOf_bounds (source : String) (w : UInt32) :
    1 ≤ lineOf source w.toNat ∧ lineOf source w.toNat ≤ 2 ^ 32 := by
  have hle := length_newlinesBefore_le source w.toNat
  have hlt := w.toNat_lt
  unfold lineOf
  omega

/-- Columns are counted from one, and there are at most `2 ^ 32` of them. -/
theorem columnOf_bounds (source : String) (w : UInt32) :
    1 ≤ columnOf source w.toNat ∧ columnOf source w.toNat ≤ 2 ^ 32 := by
  have hlt := w.toNat_lt
  unfold columnOf
  omega

/-- `LineOverflows source w`: the number of the line takes 33 bits.  The text is made of newlines,
as many as a word can count, and the offset is its end. -/
def LineOverflows (source : String) (w : UInt32) : Prop :=
  w.toNat = 2 ^ 32 - 1 ∧ source.toUTF8.toList = List.replicate (2 ^ 32 - 1) newline

/-- `ColumnOverflows source w`: the number of the column takes 33 bits.  The text has no newlines,
and the offset is the greatest one. -/
def ColumnOverflows (source : String) (w : UInt32) : Prop :=
  w.toNat = 2 ^ 32 - 1 ∧ newline ∉ source.toUTF8.toList

/-- All bytes before an offset are newlines when there are as many newlines as bytes. -/
theorem length_newlinesBefore_eq_iff :
    (newlinesBefore source offset).length = offset ↔
      ∀ i < offset, source.toUTF8.toList[i]? = some newline := by
  have hfilter := List.length_filter_eq_length_iff (l := List.range offset)
    (p := fun i => decide (source.toUTF8.toList[i]? = some newline))
  rw [List.length_range] at hfilter
  rw [newlinesBefore, hfilter]
  simp

/-- When the number of a line does not fit in a word. -/
theorem lineOverflows_iff (hsize : source.utf8ByteSize < 2 ^ 32) {w : UInt32} :
    LineOverflows source w ↔ lineOf source w.toNat = 2 ^ 32 := by
  have hle := length_newlinesBefore_le source w.toNat
  have hlt := w.toNat_lt
  constructor
  · rintro ⟨hw, hbytes⟩
    have hall : (newlinesBefore source w.toNat).length = w.toNat := by
      rw [length_newlinesBefore_eq_iff, hbytes, hw]
      intro i hi
      rw [List.getElem?_replicate, if_pos hi]
    unfold lineOf
    omega
  · intro hline
    unfold lineOf at hline
    have hw : w.toNat = 2 ^ 32 - 1 := by omega
    have hlength : (newlinesBefore source w.toNat).length = w.toNat := by omega
    have hall := length_newlinesBefore_eq_iff.1 hlength
    rw [hw] at hall
    refine ⟨hw, List.ext_getElem? fun i => ?_⟩
    rw [List.getElem?_replicate]
    split
    · exact hall i ‹_›
    · rw [List.getElem?_eq_none_iff, length_toList_toUTF8]
      omega

/-- A line starts with the text when no newline is before the offset. -/
theorem startOf_eq_zero_iff : startOf source offset = 0 ↔ newlinesBefore source offset = [] := by
  unfold startOf
  cases hlast : (newlinesBefore source offset).getLast? with
  | none => simpa using List.getLast?_eq_none_iff.1 hlast
  | some i =>
    have hne : newlinesBefore source offset ≠ [] := by
      intro hnil
      rw [hnil] at hlast
      cases hlast
    simp [hne]

/-- When the number of a column does not fit in a word. -/
theorem columnOverflows_iff (hsize : source.utf8ByteSize < 2 ^ 32) {w : UInt32} :
    ColumnOverflows source w ↔ columnOf source w.toNat = 2 ^ 32 := by
  have hlt := w.toNat_lt
  have hcolumn : columnOf source w.toNat = 2 ^ 32 ↔
      w.toNat = 2 ^ 32 - 1 ∧ startOf source w.toNat = 0 := by
    unfold columnOf
    omega
  rw [hcolumn, ColumnOverflows, startOf_eq_zero_iff, List.eq_nil_iff_forall_not_mem]
  refine and_congr_right fun hw => ?_
  constructor
  · intro hnone i hi
    exact hnone (List.mem_of_getElem? (mem_newlinesBefore_iff.1 hi).2)
  · intro hnone hmem
    obtain ⟨i, hi⟩ := List.mem_iff_getElem?.1 hmem
    obtain ⟨hbound, -⟩ := List.getElem?_eq_some_iff.1 hi
    rw [length_toList_toUTF8] at hbound
    exact hnone i (mem_newlinesBefore_iff.2 ⟨by omega, hi⟩)

/-- No difference is below zero: the line of an offset does not start after it. -/
theorem overflow_eq_add (hsize : source.utf8ByteSize < 2 ^ 32) {w : UInt32} {overflow : Overflow}
    (h : (ofSource source).position w = .error overflow) : overflow = .add := by
  rw [position_eq hsize] at h
  rcases bind_eq_error_iff.1 h with hline | ⟨line, -, h⟩
  · exact Word.eq_add_of_add_eq_error hline
  rcases bind_eq_error_iff.1 h with hdistance | ⟨distance, -, h⟩
  · rw [Word.subtract, if_pos (startOf_toUInt32_le source w)] at hdistance
    cases hdistance
  rcases bind_eq_error_iff.1 h with hcolumn | ⟨column, -, h⟩
  · exact Word.eq_add_of_add_eq_error hcolumn
  · cases h

/-- An offset has no position exactly when its line or its column does not fit in a word. -/
theorem position_eq_error_iff (hsize : source.utf8ByteSize < 2 ^ 32) {w : UInt32}
    {overflow : Overflow} :
    (ofSource source).position w = .error overflow ↔
      overflow = .add ∧ (LineOverflows source w ∨ ColumnOverflows source w) := by
  have hline := lineOf_bounds source w
  have hcolumn := columnOf_bounds source w
  rw [lineOverflows_iff hsize, columnOverflows_iff hsize]
  cases hposition : (ofSource source).position w with
  | ok position =>
    obtain ⟨hlineWord, hcolumnWord⟩ := (position_eq_ok_iff hsize).1 hposition
    have hlineLt := position.1.toNat_lt
    have hcolumnLt := position.2.toNat_lt
    simp only [reduceCtorEq, false_iff, not_and]
    omega
  | error overflow' =>
    have hadd := overflow_eq_add hsize hposition
    have hoverflows : lineOf source w.toNat = 2 ^ 32 ∨ columnOf source w.toNat = 2 ^ 32 := by
      by_contra hfits
      have hlineLt : lineOf source w.toNat < 2 ^ 32 := by omega
      have hcolumnLt : columnOf source w.toNat < 2 ^ 32 := by omega
      have hok : (ofSource source).position w = .ok
          ((lineOf source w.toNat).toUInt32, (columnOf source w.toNat).toUInt32) :=
        (position_eq_ok_iff hsize).2 ⟨toNat_toUInt32 hlineLt, toNat_toUInt32 hcolumnLt⟩
      rw [hok] at hposition
      cases hposition
    rw [Except.error.injEq, hadd]
    constructor
    · rintro rfl
      exact ⟨rfl, hoverflows⟩
    · rintro ⟨rfl, -⟩
      rfl

/-- Where the numbers of an offset fit in words, these words are its position. -/
theorem exists_position (hsize : source.utf8ByteSize < 2 ^ 32) {w : UInt32}
    (hline : ¬ LineOverflows source w) (hcolumn : ¬ ColumnOverflows source w) :
    ∃ position, (ofSource source).position w = .ok position := by
  cases hposition : (ofSource source).position w with
  | ok position => exact ⟨position, rfl⟩
  | error overflow =>
    obtain ⟨-, hoverflows⟩ := (position_eq_error_iff hsize).1 hposition
    exact absurd hoverflows (not_or.2 ⟨hline, hcolumn⟩)

/-- A greater offset has a greater position, line before column. -/
theorem position_lt (hsize : source.utf8ByteSize < 2 ^ 32) {a b : UInt32} (h : a < b)
    {p q : UInt32 × UInt32} (hp : (ofSource source).position a = .ok p)
    (hq : (ofSource source).position b = .ok q) : p.1 < q.1 ∨ p.1 = q.1 ∧ p.2 < q.2 := by
  obtain ⟨hpLine, hpColumn⟩ := (position_eq_ok_iff hsize).1 hp
  obtain ⟨hqLine, hqColumn⟩ := (position_eq_ok_iff hsize).1 hq
  have hplace := place_lt source (UInt32.lt_iff_toNat_lt.1 h)
  rw [UInt32.lt_iff_toNat_lt, UInt32.lt_iff_toNat_lt, ← UInt32.toNat_inj, hpLine, hqLine, hpColumn,
    hqColumn]
  exact hplace

/-- Different offsets have different positions. -/
theorem eq_of_position_eq (hsize : source.utf8ByteSize < 2 ^ 32) {a b : UInt32}
    {p : UInt32 × UInt32} (ha : (ofSource source).position a = .ok p)
    (hb : (ofSource source).position b = .ok p) : a = b := by
  have hirrefl : ¬ (p.1 < p.1 ∨ p.1 = p.1 ∧ p.2 < p.2) := by simp
  rcases Nat.lt_trichotomy a.toNat b.toNat with hlt | heq | hlt
  · exact absurd (position_lt hsize (UInt32.lt_iff_toNat_lt.2 hlt) ha hb) hirrefl
  · exact UInt32.toNat_inj.1 heq
  · exact absurd (position_lt hsize (UInt32.lt_iff_toNat_lt.2 hlt) hb ha) hirrefl

/-- The position of an offset, for every text of fewer than `2 ^ 32` bytes.  The starts of lines are
in order; one more of them than there are newlines before the offset lie at or before it, so that
the search does not come out before the first one; the last of these is there and is the start of
the line, which does not lie after the offset, so that no difference is below zero.  Only an
addition can fail, and only because the line or the column takes 33 bits.

Every offset whose column fits in a word has a position, with a single exception, the end of a text
of `2 ^ 32 - 1` newlines, whose line does not fit.  The line is one more than the number of newlines
before the offset, and the column is the distance from the start of the line, counted from one.
Different offsets have different positions, and greater offsets have greater ones. -/
theorem position_is_exact (source : String) (hsize : source.utf8ByteSize < 2 ^ 32) :
    (ofSource source).starts.Pairwise (· < ·) ∧
    (∀ w : UInt32,
      ((ofSource source).starts.takeWhile fun start => decide (start ≤ w)).length =
        (newlinesBefore source w.toNat).length + 1 ∧
      (ofSource source).starts[(newlinesBefore source w.toNat).length]? =
        some (startOf source w.toNat).toUInt32 ∧
      startOf source w.toNat ≤ w.toNat ∧
      ∀ overflow, (ofSource source).position w = .error overflow ↔
        overflow = .add ∧ (LineOverflows source w ∨ columnOf source w.toNat = 2 ^ 32)) ∧
    (∀ w : UInt32, columnOf source w.toNat < 2 ^ 32 → ¬ LineOverflows source w →
      ∃ line column, (ofSource source).position w = .ok (line, column) ∧
        line.toNat = 1 + (newlinesBefore source w.toNat).length ∧
        column.toNat = w.toNat - startOf source w.toNat + 1) ∧
    (∀ a b p, (ofSource source).position a = .ok p → (ofSource source).position b = .ok p →
      a = b) ∧
    ∀ a b p q, a < b → (ofSource source).position a = .ok p →
      (ofSource source).position b = .ok q → p.1 < q.1 ∨ p.1 = q.1 ∧ p.2 < q.2 := by
  refine ⟨starts_pairwise hsize, ?_, ?_, fun _ _ _ => eq_of_position_eq hsize,
    fun _ _ _ _ hlt hp hq => position_lt hsize hlt hp hq⟩
  · intro w
    refine ⟨?_, getElem?_starts hsize w, startOf_le source w.toNat, fun overflow => ?_⟩
    · rw [takeWhile_starts hsize, List.length_map, length_startsUpTo, lineOf, Nat.add_comm]
    · rw [position_eq_error_iff hsize, columnOverflows_iff hsize]
  · intro w hcolumn hline
    have hfits : ¬ ColumnOverflows source w := by
      rw [columnOverflows_iff hsize]
      exact Nat.ne_of_lt hcolumn
    obtain ⟨⟨line, column⟩, hposition⟩ := exists_position hsize hline hfits
    obtain ⟨hlineIs, hcolumnIs⟩ := (position_eq_ok_iff hsize).1 hposition
    exact ⟨line, column, hposition, hlineIs, hcolumnIs⟩

/-- Where a newline ends a line: it is the last byte of the first line, and the byte after it is the
first of the second. -/
theorem newline_ends_line :
    ("ab\ncd".utf8ByteSize < 2 ^ 32 ∧ columnOf "ab\ncd" 3 < 2 ^ 32 ∧
      ¬ LineOverflows "ab\ncd" 3) ∧
    (∃ line column, (ofSource "ab\ncd").position 3 = .ok (line, column) ∧
      line.toNat = 1 + (newlinesBefore "ab\ncd" 3).length ∧
      column.toNat = 3 - startOf "ab\ncd" 3 + 1) ∧
    (ofSource "ab\ncd").position 2 = .ok (1, 3) ∧ (ofSource "ab\ncd").position 3 = .ok (2, 1) := by
  have hsize : "ab\ncd".utf8ByteSize < 2 ^ 32 := by decide +kernel
  have hcolumn : columnOf "ab\ncd" (3 : UInt32).toNat < 2 ^ 32 := by decide +kernel
  have hline : ¬ LineOverflows "ab\ncd" 3 := fun h => absurd h.1 (by decide)
  have hposition := (position_is_exact _ hsize).2.2.1 3 hcolumn hline
  exact ⟨⟨hsize, hcolumn, hline⟩, hposition, by decide +kernel, by decide +kernel⟩

/-! ## A text of newlines -/

/-- A text of newlines. -/
def newlines (n : Nat) : String := String.ofList (List.replicate n '\n')

/-- Its bytes are newlines. -/
theorem toList_toUTF8_newlines (n : Nat) :
    (newlines n).toUTF8.toList = List.replicate n newline := by
  have hchar : String.utf8EncodeChar '\n' = [newline] := by decide
  have hbytes : (newlines n).toUTF8 = (List.replicate n '\n').utf8Encode :=
    String.toByteArray_ofList
  rw [toList_eq, hbytes, List.utf8Encode, List.data_toByteArray, List.flatMap_replicate, hchar]
  simp

/-- At the end of a text of as many newlines as a word can count the column fits in a word and the
line does not. -/
theorem end_of_newlines_has_no_position :
    (newlines (2 ^ 32 - 1)).utf8ByteSize < 2 ^ 32 ∧
    columnOf (newlines (2 ^ 32 - 1)) (4294967295 : UInt32).toNat < 2 ^ 32 ∧
    (ofSource (newlines (2 ^ 32 - 1))).position 4294967295 = .error .add := by
  have hbytes := toList_toUTF8_newlines (2 ^ 32 - 1)
  have hsize : (newlines (2 ^ 32 - 1)).utf8ByteSize < 2 ^ 32 := by
    rw [← length_toList_toUTF8, hbytes, List.length_replicate]
    decide
  have hline : LineOverflows (newlines (2 ^ 32 - 1)) 4294967295 := ⟨by decide, hbytes⟩
  refine ⟨hsize, ?_, (position_eq_error_iff hsize).2 ⟨rfl, .inl hline⟩⟩
  have hcolumn := columnOf_bounds (newlines (2 ^ 32 - 1)) 4294967295
  have hfits : ¬ ColumnOverflows (newlines (2 ^ 32 - 1)) 4294967295 := by
    rintro ⟨-, hnone⟩
    rw [hbytes] at hnone
    exact hnone (List.mem_replicate.2 ⟨by decide, rfl⟩)
  rw [columnOverflows_iff hsize] at hfits
  omega

end LineIndex

end Shader
