import GmosFontGen.Format

/-! How the display driver finds a glyph in the arrays `formatFontData` emits, and that
the encoder's arrays agree with it. The driver takes the `k`-th glyph's advance width from
the width table (the cell width when there is none) and its first byte from the index
table (`k` whole cells of `fontHeight * ceil(fontWidth / 8)` bytes when there is none);
row `i` then starts `i * ceil(width / 8)` bytes on. The encoder keeps instead a running
count of the bytes it has emitted. When every requested glyph's advance width takes no
more bytes per row than the cell, the values it writes agree with that reading
(`formatFontData_addressed`); a wider one makes the encoder's copy read past the glyph's
data (`formatFontData_wide`).

The driver reads the arrays as compiled (`compiledSource`): the template declares the data
and the width table `uint8_t` and the index `uint16_t`, so C keeps each value modulo its
type's range. The compiled arrays agree with the driver's reading exactly when every
index entry fits a `uint16_t` (`formatFontData_compiled`), which a font of more than
64 KiB of glyph data breaks (`tallFont_indexWraps`). -/
namespace GmosFontGen.Addressing
open Python ParseChar ParseFont Grammar Format

/-! ## The driver's reading of the arrays

The readers below take any arrays. The driver applies them to the arrays as compiled,
`compiledSource src`; applied to `src` itself they read the values `formatFontData`
writes into the templates. -/

/-- The `k`-th glyph's advance width: its width-table entry, or the cell width in the
monospaced layout. -/
def glyphWidth (src : FontSource) (k : Nat) : Int :=
  match src.charWidths with
  | some charWidths => charWidths.getD k 0
  | none => src.fontWidth

/-- The bytes one row of the `k`-th glyph takes. -/
def glyphStride (src : FontSource) (k : Nat) : Nat := (byteWidth (glyphWidth src k)).toNat

/-- The offset of the `k`-th glyph's first byte: its index entry, or `k` whole cells in
the two layouts without an index. -/
def glyphStart (src : FontSource) (k : Nat) : Nat :=
  match src.charIndex with
  | some charIndex => charIndex.getD k 0
  | none => k * (src.fontHeight.toNat * (byteWidth src.fontWidth).toNat)

/-- One past the `k`-th glyph's last byte. -/
def glyphEnd (src : FontSource) (k : Nat) : Nat :=
  glyphStart src k + src.fontHeight.toNat * glyphStride src k

/-- Row `i` of the `k`-th glyph as the driver reads it. -/
def glyphRow (src : FontSource) (k i : Nat) : List Nat :=
  (src.charData.drop (glyphStart src k + i * glyphStride src k)).take (glyphStride src k)

/-- All the bytes of the `k`-th glyph as the driver reads them. -/
def glyphBytes (src : FontSource) (k : Nat) : List Nat :=
  (src.charData.drop (glyphStart src k)).take (src.fontHeight.toNat * glyphStride src k)

/-! ## The arrays as compiled -/

/-- The arrays as the C compiler stores them from the template's initializers: the data
and the width table are `uint8_t` and the index `uint16_t`, so each entry is kept modulo
its type's range. -/
def compiledSource (src : FontSource) : FontSource :=
  { src with
    charData := src.charData.map (· % 2 ^ 8)
    charWidths := src.charWidths.map fun charWidths => charWidths.map (· % 2 ^ 8)
    charIndex := src.charIndex.map fun charIndex => charIndex.map (· % 2 ^ 16) }

/-- A map that fixes every entry of a list leaves the list as it is. -/
theorem map_eq_self_of_fixed {f : α → α} {l : List α} (fixed : ∀ x ∈ l, f x = x) :
    l.map f = l := by
  conv_rhs => rw [← List.map_id l]
  exact List.map_congr_left fixed

@[simp] theorem compiledSource_fontWidth (src : FontSource) :
    (compiledSource src).fontWidth = src.fontWidth := rfl
@[simp] theorem compiledSource_fontHeight (src : FontSource) :
    (compiledSource src).fontHeight = src.fontHeight := rfl

theorem glyphWidth_compiledSource (src : FontSource) (k : Nat) :
    glyphWidth (compiledSource src) k =
      if src.charWidths.isSome then glyphWidth src k % 2 ^ 8 else glyphWidth src k := by
  unfold glyphWidth compiledSource
  rcases src.charWidths with _ | charWidths
  · rfl
  · simp only [Option.map_some', Option.isSome_some, if_true, List.getD_eq_getElem?_getD,
      List.getElem?_map]
    cases charWidths[k]? <;> rfl

theorem glyphStart_compiledSource (src : FontSource) (k : Nat) :
    glyphStart (compiledSource src) k =
      if src.charIndex.isSome then glyphStart src k % 2 ^ 16 else glyphStart src k := by
  unfold glyphStart compiledSource
  rcases src.charIndex with _ | charIndex
  · rfl
  · simp only [Option.map_some', Option.isSome_some, if_true, List.getD_eq_getElem?_getD,
      List.getElem?_map]
    cases charIndex[k]? <;> rfl

/-- A width in a `uint8_t`'s range is compiled as it is written. -/
theorem glyphWidth_compiledSource_of_lt {src : FontSource} {k : Nat}
    (width : 0 ≤ glyphWidth src k ∧ glyphWidth src k < 2 ^ 8) :
    glyphWidth (compiledSource src) k = glyphWidth src k := by
  rw [glyphWidth_compiledSource]
  split
  · exact Int.emod_eq_of_lt width.1 width.2
  · rfl

/-- Where every index entry fits a `uint16_t`, the compiled index gives each glyph's start
as written. -/
theorem glyphStart_compiledSource_of_lt {src : FontSource}
    (index : ∀ charIndex, src.charIndex = some charIndex → ∀ e ∈ charIndex, e < 2 ^ 16)
    (k : Nat) : glyphStart (compiledSource src) k = glyphStart src k := by
  rw [glyphStart_compiledSource]
  rcases indexed : src.charIndex with _ | charIndex
  · rfl
  have entry : glyphStart src k = charIndex.getD k 0 := by simp [glyphStart, indexed]
  rw [Option.isSome_some, if_pos rfl, entry, List.getD_eq_getElem?_getD]
  rcases entry : charIndex[k]? with _ | e
  · rfl
  exact Nat.mod_eq_of_lt (index charIndex indexed e (List.getElem?_mem entry))

/-- Where the data's bytes fit a `uint8_t` and a glyph's start and stride are compiled as
written, the driver reads its rows as written. -/
theorem glyphRow_compiledSource {src : FontSource} {k : Nat} (data : ∀ b ∈ src.charData, b < 2 ^ 8)
    (start : glyphStart (compiledSource src) k = glyphStart src k)
    (stride : glyphStride (compiledSource src) k = glyphStride src k) (i : Nat) :
    glyphRow (compiledSource src) k i = glyphRow src k i := by
  have same : (compiledSource src).charData = src.charData :=
    map_eq_self_of_fixed fun b mem => Nat.mod_eq_of_lt (data b mem)
  rw [glyphRow, glyphRow, start, stride, same]

/-- Arrays whose entries all fit their types are compiled as they are written. -/
theorem compiledSource_eq_self {src : FontSource} (data : ∀ b ∈ src.charData, b < 2 ^ 8)
    (widths : ∀ charWidths, src.charWidths = some charWidths →
      ∀ w ∈ charWidths, 0 ≤ w ∧ w < 2 ^ 8)
    (index : ∀ charIndex, src.charIndex = some charIndex → ∀ e ∈ charIndex, e < 2 ^ 16) :
    compiledSource src = src := by
  obtain ⟨_, _, _, _, _, _, _, _, charData, charWidths, charIndex⟩ := src
  simp only [compiledSource, FontSource.mk.injEq, true_and]
  refine ⟨map_eq_self_of_fixed fun b mem => Nat.mod_eq_of_lt (data b mem), ?_, ?_⟩
  · rcases charWidths with _ | charWidths
    · rfl
    exact congrArg some (map_eq_self_of_fixed fun w mem =>
      Int.emod_eq_of_lt (widths _ rfl w mem).1 (widths _ rfl w mem).2)
  · rcases charIndex with _ | charIndex
    · rfl
    exact congrArg some (map_eq_self_of_fixed fun e mem => Nat.mod_eq_of_lt (index _ rfl e mem))

/-! ## What the driver should find -/

/-- The glyph drawn for a codepoint: its own stored rows, else those of the space. -/
def drawnGlyph (fd : FontDef) (codePoint : Int) : List Nat :=
  match fd.charSet codePoint with
  | some charData => charData
  | none => (fd.charSet 0x20).getD []

/-- Row `i` of stored glyph data, `ceil(fontWidth / 8)` bytes at that stride. -/
def cellRow (fd : FontDef) (charData : List Nat) (i : Nat) : List Nat :=
  (charData.drop (i * (byteWidth fd.fontWidth).toNat)).take (byteWidth fd.fontWidth).toNat

/-- The driver's reading of arrays `src` agrees with the glyphs drawn for `codes`: the
arrays declare the definition's cell, each table they have holds one entry per
codepoint, the `k`-th glyph's width is the advance width of `codes[k]`, row `i` of it is
the start of row `i` of the glyph drawn for `codes[k]`, and the glyphs' byte ranges tile
the data in order. -/
structure Addressed (fd : FontDef) (codes : List Int) (src : FontSource) : Prop where
  cell : src.fontWidth = fd.fontWidth ∧ src.fontHeight = fd.fontHeight
  widthTable : ∀ charWidths, src.charWidths = some charWidths → charWidths.length = codes.length
  indexTable : ∀ charIndex, src.charIndex = some charIndex → charIndex.length = codes.length
  width : ∀ k (_ : k < codes.length), glyphWidth src k = charWidthOf fd codes[k]
  rows : ∀ k (_ : k < codes.length), ∀ i < fd.fontHeight.toNat,
    glyphRow src k i = (cellRow fd (drawnGlyph fd codes[k]) i).take (glyphStride src k)
  first : 0 < codes.length → glyphStart src 0 = 0
  tiles : ∀ k, k + 1 < codes.length → glyphStart src (k + 1) = glyphEnd src k
  last : ∀ k, k + 1 = codes.length → glyphEnd src k = src.charData.length

/-- Each requested codepoint has a glyph to draw, its own or the space's, and a stored
advance width takes no more bytes per row than the cell. -/
def Fits (fd : FontDef) (codes : List Int) : Prop :=
  ∀ c ∈ codes, ((fd.charSet c).isSome ∨ (fd.charSet 0x20).isSome) ∧
    ∀ charWidth, fd.charWidths c = some charWidth → byteWidth charWidth ≤ byteWidth fd.fontWidth

/-! ## Blocks in a flattened list -/

/-- The `i`-th of a run of blocks of one length `n` starts `i * n` into their flatten,
whatever follows them. -/
theorem take_drop_flatten {L : List (List α)} {n i : Nat} (uniform : ∀ l ∈ L, l.length = n)
    (h : i < L.length) (rest : List α) : ((L.flatten ++ rest).drop (i * n)).take n = L[i] := by
  have starts : (((L ++ [rest]).map List.length).take i).sum = i * n := by
    rw [List.map_append, List.take_append_of_le_length (by simpa using h.le),
      List.sum_eq_card_nsmul _ n, Nat.nsmul_eq_mul, List.length_take, List.length_map,
      Nat.min_eq_left h.le]
    intro x mem
    obtain ⟨l, found, rfl⟩ := List.mem_map.mp (List.mem_of_mem_take mem)
    exact uniform l found
  have whole : L.flatten ++ rest = (L ++ [rest]).flatten := by simp
  have block := uniform _ (List.getElem_mem h)
  rw [whole, ← starts, List.drop_sum_flatten, List.drop_eq_getElem_cons (by simp; omega),
    List.flatten_cons, List.getElem_append_left h, List.take_append_of_le_length block.ge,
    List.take_of_length_le block.le]

/-- The `k`-th part of a flatten starts after the lengths of the parts before it. -/
theorem drop_sum_flatten_getElem (L : List (List α)) {k : Nat} (h : k < L.length) :
    L.flatten.drop ((L.map List.length).take k).sum = L[k] ++ (L.drop (k + 1)).flatten := by
  rw [List.drop_sum_flatten, List.drop_eq_getElem_cons h, List.flatten_cons]

theorem sum_take_of_forall_eq {l : List Nat} {m k : Nat} (same : ∀ x ∈ l, x = m)
    (h : k ≤ l.length) : (l.take k).sum = k * m := by
  rw [List.sum_eq_card_nsmul _ m (fun x mem => same x (List.mem_of_mem_take mem)),
    List.length_take, Nat.min_eq_left h, Nat.nsmul_eq_mul]

/-- Cutting a list of `n * s` entries into `n` rows of `s` and joining the rows gives it
back. -/
theorem flatten_rows {s : Nat} :
    ∀ {n : Nat} {l : List α}, l.length = n * s →
      ((List.range n).map fun i => (l.drop (i * s)).take s).flatten = l
  | 0, l, length => by simp_all
  | n + 1, l, length => by
    have rest : (l.drop s).length = n * s := by simp [length, Nat.succ_mul]
    rw [List.range_succ_eq_map, List.map_cons, List.map_map, List.flatten_cons]
    conv_rhs => rw [← List.take_append_drop s l, ← flatten_rows rest]
    simp [Function.comp_def, Nat.succ_mul, Nat.add_comm]

/-! ## What the encoder emits for one codepoint -/

/-- The bytes the encoder emits for a codepoint: each cell row of its drawn glyph, cut to
its advance width's bytes per row. -/
def emittedBytes (fd : FontDef) (codePoint : Int) : List Nat :=
  (List.range fd.fontHeight.toNat).flatMap fun i =>
    (cellRow fd (drawnGlyph fd codePoint) i).take (byteWidth (charWidthOf fd codePoint)).toNat

section
variable {fd : FontDef} {c : Int}

theorem rowLength_eq_byteWidth {fontWidth : Int} (narrow : 1 ≤ fontWidth ∧ fontWidth ≤ 32) :
    rowLength fontWidth = (byteWidth fontWidth).toNat := by
  have := rowLength_eq narrow.1 narrow.2
  simp only [byteWidth]
  omega

theorem length_drawnGlyph (wf : WellFormed fd) (narrow : 1 ≤ fd.fontWidth ∧ fd.fontWidth ≤ 32)
    (drawn : (fd.charSet c).isSome ∨ (fd.charSet 0x20).isSome) :
    (drawnGlyph fd c).length = fd.fontHeight.toNat * (byteWidth fd.fontWidth).toNat := by
  rw [← rowLength_eq_byteWidth narrow, drawnGlyph]
  cases own : fd.charSet c with
  | some g => exact wf.glyphLength _ _ own
  | none =>
    obtain ⟨g, space⟩ := Option.isSome_iff_exists.mp (drawn.resolve_left (by simp [own]))
    simp [space, wf.glyphLength _ _ space]

theorem charDataOf_eq (drawn : (fd.charSet c).isSome ∨ (fd.charSet 0x20).isSome) :
    charDataOf fd c = .ok (drawnGlyph fd c) := by
  unfold charDataOf drawnGlyph
  cases own : fd.charSet c with
  | some g => rfl
  | none =>
    obtain ⟨g, space⟩ := Option.isSome_iff_exists.mp (drawn.resolve_left (by simp [own]))
    simp [space]
    rfl

theorem charWidthOf_le (fit : ∀ charWidth, fd.charWidths c = some charWidth →
      byteWidth charWidth ≤ byteWidth fd.fontWidth) :
    byteWidth (charWidthOf fd c) ≤ byteWidth fd.fontWidth := by
  unfold charWidthOf
  cases own : fd.charWidths c with
  | none => exact le_refl _
  | some charWidth => exact fit _ own

/-- In a definition still marked monospaced every codepoint has the cell's advance width. -/
theorem charWidthOf_monospaced (wf : WellFormed fd) (mono : fd.fontMonospaced = true)
    (c : Int) : charWidthOf fd c = fd.fontWidth := by
  unfold charWidthOf
  cases own : fd.charWidths c with
  | none => rfl
  | some charWidth => exact wf.monospaced mono c _ own

/-- **The copy of a glyph that fits the cell stride** is what the encoder emits for it. -/
theorem charBytesOf_eq (wf : WellFormed fd) (narrow : 1 ≤ fd.fontWidth ∧ fd.fontWidth ≤ 32)
    (fit : ((fd.charSet c).isSome ∨ (fd.charSet 0x20).isSome) ∧ ∀ charWidth,
      fd.charWidths c = some charWidth → byteWidth charWidth ≤ byteWidth fd.fontWidth) :
    charBytesOf fd c = .ok (emittedBytes fd c) := by
  have le := charWidthOf_le fit.2
  have narrower : (byteWidth (charWidthOf fd c)).toNat ≤ (byteWidth fd.fontWidth).toNat := by
    omega
  rw [charBytesOf, charDataOf_eq fit.1, ok_bind,
    copyCharData_eq narrow.1 le (length_drawnGlyph wf narrow fit.1)]
  simp only [emittedBytes, cellRow, List.take_take, Nat.min_eq_left narrower]

/-- The cell rows of an emitted glyph, each as long as the advance width's bytes. -/
theorem emittedBytes_rows (wf : WellFormed fd) (narrow : 1 ≤ fd.fontWidth ∧ fd.fontWidth ≤ 32)
    (fit : ((fd.charSet c).isSome ∨ (fd.charSet 0x20).isSome) ∧ ∀ charWidth,
      fd.charWidths c = some charWidth → byteWidth charWidth ≤ byteWidth fd.fontWidth) :
    ∀ l ∈ (List.range fd.fontHeight.toNat).map (fun i =>
        (cellRow fd (drawnGlyph fd c) i).take (byteWidth (charWidthOf fd c)).toNat),
      l.length = (byteWidth (charWidthOf fd c)).toNat := by
  have le := charWidthOf_le fit.2
  have length := length_drawnGlyph wf narrow fit.1
  simp only [List.mem_map, List.mem_range, forall_exists_index, and_imp]
  rintro _ i row rfl
  have room : i * (byteWidth fd.fontWidth).toNat + (byteWidth fd.fontWidth).toNat ≤
      fd.fontHeight.toNat * (byteWidth fd.fontWidth).toNat := by
    rw [← Nat.succ_mul]; exact Nat.mul_le_mul_right _ row
  simp only [cellRow, List.length_take, List.length_drop, length]
  omega

theorem length_emittedBytes (wf : WellFormed fd) (narrow : 1 ≤ fd.fontWidth ∧ fd.fontWidth ≤ 32)
    (fit : ((fd.charSet c).isSome ∨ (fd.charSet 0x20).isSome) ∧ ∀ charWidth,
      fd.charWidths c = some charWidth → byteWidth charWidth ≤ byteWidth fd.fontWidth) :
    (emittedBytes fd c).length =
      fd.fontHeight.toNat * (byteWidth (charWidthOf fd c)).toNat := by
  rw [emittedBytes, List.flatMap_def, List.length_flatten,
    List.sum_eq_card_nsmul _ (byteWidth (charWidthOf fd c)).toNat, Nat.nsmul_eq_mul]
  · simp
  · intro x mem
    obtain ⟨l, found, rfl⟩ := List.mem_map.mp mem
    exact emittedBytes_rows wf narrow fit l found

/-- A glyph emitted at the cell's bytes per row is emitted whole. -/
theorem emittedBytes_full (wf : WellFormed fd) (narrow : 1 ≤ fd.fontWidth ∧ fd.fontWidth ≤ 32)
    (drawn : (fd.charSet c).isSome ∨ (fd.charSet 0x20).isSome)
    (cell : byteWidth (charWidthOf fd c) = byteWidth fd.fontWidth) :
    emittedBytes fd c = drawnGlyph fd c := by
  rw [emittedBytes, cell, List.flatMap_def]
  simp only [cellRow, List.take_take, Nat.min_self]
  exact flatten_rows (length_drawnGlyph wf narrow drawn)

/-- The byte-width class every glyph has when the font is emitted without an index. -/
theorem byteWidth_unindexed {codes : List Int} (wf : WellFormed fd)
    (unindexed : (fd.fontMonospaced || codes.all fun c =>
      (charWidthOf fd c - 1) / 8 == (fd.fontWidth - 1) / 8) = true) (mem : c ∈ codes) :
    byteWidth (charWidthOf fd c) = byteWidth fd.fontWidth := by
  cases mono : fd.fontMonospaced
  · rw [mono, Bool.false_or, List.all_eq_true] at unindexed
    have := unindexed c mem
    simp only [beq_iff_eq] at this
    simp only [byteWidth, this]
  · rw [charWidthOf_monospaced wf mono]

end

/-! ## The encoder's arrays against the driver's reading -/

section
variable {fd : FontDef} {codes : List Int} {src : FontSource}

theorem glyphWidth_of (wf : WellFormed fd) (cellWidth : src.fontWidth = fd.fontWidth)
    (widths : src.charWidths =
      if fd.fontMonospaced then none else some (codes.map (charWidthOf fd)))
    {k : Nat} (h : k < codes.length) : glyphWidth src k = charWidthOf fd codes[k] := by
  unfold glyphWidth
  cases mono : fd.fontMonospaced
  · simp [widths, mono, h]
  · simp only [widths, mono, if_true, cellWidth]
    exact (charWidthOf_monospaced wf mono _).symm

theorem glyphStart_of (wf : WellFormed fd) (narrow : 1 ≤ fd.fontWidth ∧ fd.fontWidth ≤ 32)
    (fits : Fits fd codes) (height : src.fontHeight = fd.fontHeight)
    (cellWidth : src.fontWidth = fd.fontWidth)
    (index : src.charIndex =
      if fd.fontMonospaced ||
          codes.all fun c => (charWidthOf fd c - 1) / 8 == (fd.fontWidth - 1) / 8 then none
      else some ((List.range codes.length).map fun k =>
        ((codes.map fun c => (emittedBytes fd c).length).take k).sum))
    {k : Nat} (h : k < codes.length) :
    glyphStart src k = ((codes.map fun c => (emittedBytes fd c).length).take k).sum := by
  unfold glyphStart
  split at index
  · next unindexed =>
    rw [index, height, cellWidth, sum_take_of_forall_eq _ (by simpa using h.le)]
    intro x mem
    obtain ⟨c, found, rfl⟩ := List.mem_map.mp mem
    rw [length_emittedBytes wf narrow (fits c found), byteWidth_unindexed wf unindexed found]
  · simp [index, h]

/-- Row `i` of the `k`-th glyph, read at the encoder's running offset. -/
theorem emitted_row (wf : WellFormed fd) (narrow : 1 ≤ fd.fontWidth ∧ fd.fontWidth ≤ 32)
    (fits : Fits fd codes) {k i : Nat} (h : k < codes.length) (row : i < fd.fontHeight.toNat) :
    (((codes.map (emittedBytes fd)).flatten.drop
        (((codes.map fun c => (emittedBytes fd c).length).take k).sum +
          i * (byteWidth (charWidthOf fd codes[k])).toNat)).take
        (byteWidth (charWidthOf fd codes[k])).toNat) =
      (cellRow fd (drawnGlyph fd codes[k]) i).take (byteWidth (charWidthOf fd codes[k])).toNat := by
  have lengths : (codes.map fun c => (emittedBytes fd c).length) =
      (codes.map (emittedBytes fd)).map List.length := by simp
  rw [← List.drop_drop, lengths,
    drop_sum_flatten_getElem _ (by simpa using h), List.getElem_map, emittedBytes,
    List.flatMap_def, take_drop_flatten (emittedBytes_rows wf narrow (fits _ (List.getElem_mem h)))
      (by simpa using row)]
  simp

/-- The encoder's arrays seen through the driver's reading: the arrays declare the
definition's cell, the data is the bytes emitted for each codepoint in turn, the tables
are the advance widths and the running byte counts, each glyph's width is its advance
width, and each glyph starts after the bytes of those before it. -/
structure Emitted (fd : FontDef) (codes : List Int) (src : FontSource) : Prop where
  cell : src.fontWidth = fd.fontWidth ∧ src.fontHeight = fd.fontHeight
  data : src.charData = (codes.map (emittedBytes fd)).flatten
  widthTable : ∀ charWidths, src.charWidths = some charWidths →
    charWidths = codes.map (charWidthOf fd)
  indexTable : ∀ charIndex, src.charIndex = some charIndex →
    charIndex = (List.range codes.length).map fun k =>
      ((codes.map fun c => (emittedBytes fd c).length).take k).sum
  width : ∀ k (h : k < codes.length), glyphWidth src k = charWidthOf fd codes[k]
  start : ∀ k, k < codes.length →
    glyphStart src k = ((codes.map fun c => (emittedBytes fd c).length).take k).sum

/-- **What `formatFontData` emits**, when every requested glyph fits the cell's bytes per
row. -/
theorem formatFontData_emitted {fontEncoding charSetName : String} (wf : WellFormed fd)
    (narrow : 1 ≤ fd.fontWidth ∧ fd.fontWidth ≤ 32) (named : fd.charSetName = some charSetName)
    (fits : Fits fd codes) (formatted : formatFontData fd fontEncoding codes = .ok src) :
    Emitted fd codes src := by
  rw [formatFontData_eq named fun c mem => charBytesOf_eq wf narrow (fits c mem)] at formatted
  cases formatted
  refine ⟨⟨rfl, rfl⟩, rfl, fun _ given => ?_, fun _ given => ?_, fun _ h => glyphWidth_of wf rfl rfl h,
    fun _ h => glyphStart_of wf narrow fits rfl rfl rfl h⟩ <;>
  · dsimp only at given
    split at given
    · cases given
    · cases given
      rfl

theorem addressed_of (wf : WellFormed fd) (narrow : 1 ≤ fd.fontWidth ∧ fd.fontWidth ≤ 32)
    (fits : Fits fd codes) (emitted : Emitted fd codes src) :
    Addressed fd codes src where
  cell := emitted.cell
  widthTable charWidths given := by rw [emitted.widthTable charWidths given, List.length_map]
  indexTable charIndex given := by
    rw [emitted.indexTable charIndex given, List.length_map, List.length_range]
  width := emitted.width
  rows k h i row := by
    rw [glyphRow, glyphStride, emitted.data, emitted.start k h, emitted.width k h]
    exact emitted_row wf narrow fits h row
  first h := by rw [emitted.start 0 h]; rfl
  tiles k h := by
    rw [emitted.start (k + 1) h, glyphEnd, emitted.start k (by omega), glyphStride,
      emitted.width k (by omega), emitted.cell.2, List.sum_take_succ _ _ (by simp; omega),
      List.getElem_map, length_emittedBytes wf narrow (fits _ (List.getElem_mem _))]
  last k h := by
    rw [glyphEnd, emitted.start k (by omega), glyphStride, emitted.width k (by omega),
      emitted.cell.2, emitted.data,
      List.length_flatten, ← length_emittedBytes wf narrow (fits _ (List.getElem_mem _)),
      ← List.getElem_map (fun c => (emittedBytes fd c).length),
      ← List.sum_take_succ _ _ (by simp; omega), List.map_map, h,
      List.take_of_length_le (by simp)]
    rfl

theorem glyphBytes_of (wf : WellFormed fd) (narrow : 1 ≤ fd.fontWidth ∧ fd.fontWidth ≤ 32)
    (fits : Fits fd codes) (emitted : Emitted fd codes src)
    {k : Nat} (h : k < codes.length) : glyphBytes src k = emittedBytes fd codes[k] := by
  have lengths : (codes.map fun c => (emittedBytes fd c).length) =
      (codes.map (emittedBytes fd)).map List.length := by simp
  rw [glyphBytes, emitted.data, emitted.start k h, glyphStride, emitted.width k h,
    emitted.cell.2, lengths,
    drop_sum_flatten_getElem _ (by simpa using h), List.getElem_map,
    ← length_emittedBytes wf narrow (fits _ (List.getElem_mem h)), List.take_left]

/-- **The arrays `formatFontData` emits agree with the driver's reading** when every
requested glyph fits the cell's bytes per row. -/
theorem formatFontData_addressed {fontEncoding charSetName : String} (wf : WellFormed fd)
    (narrow : 1 ≤ fd.fontWidth ∧ fd.fontWidth ≤ 32) (named : fd.charSetName = some charSetName)
    (fits : Fits fd codes) :
    ∃ src, formatFontData fd fontEncoding codes = .ok src ∧ Addressed fd codes src := by
  have formatted : formatFontData fd fontEncoding codes = _ :=
    formatFontData_eq named fun c mem => charBytesOf_eq wf narrow (fits c mem)
  exact ⟨_, formatted, addressed_of wf narrow fits (formatFontData_emitted wf narrow named fits
    formatted)⟩

/-- **A glyph wider than the cell's bytes per row** fails the whole formatting with an
`IndexError`: the copy of its last cell row reads past its stored data. -/
theorem formatFontData_wide {fontEncoding : String} (wf : WellFormed fd)
    (narrow : 1 ≤ fd.fontWidth ∧ fd.fontWidth ≤ 32) (tall : 1 ≤ fd.fontHeight)
    (space : (fd.charSet 0x20).isSome)
    (wide : ∃ c ∈ codes, ∃ charWidth, fd.charWidths c = some charWidth ∧
      byteWidth fd.fontWidth < byteWidth charWidth) :
    formatFontData fd fontEncoding codes = .error .indexError := by
  have drawn : ∀ c, (fd.charSet c).isSome ∨ (fd.charSet 0x20).isSome := fun _ => .inr space
  rw [formatFontData, foldlM_formatChar_error _ (fun c _ e raised => ?only) ?failing]
  · rfl
  case only =>
    rw [charBytesOf, charDataOf_eq (drawn c), ok_bind] at raised
    exact copyCharData_error_only raised
  case failing =>
    obtain ⟨c, mem, charWidth, own, wider⟩ := wide
    refine ⟨c, mem, .indexError, ?_⟩
    rw [charBytesOf, charDataOf_eq (drawn c), ok_bind, charWidthOf, own, Option.getD_some]
    exact copyCharData_error narrow.1 tall wider (length_drawnGlyph wf narrow (drawn c))

/-- A formatting that succeeds had every requested glyph fit. -/
theorem fits_of_formatFontData {fontEncoding : String} (wf : WellFormed fd)
    (narrow : 1 ≤ fd.fontWidth ∧ fd.fontWidth ≤ 32) (tall : 1 ≤ fd.fontHeight)
    (space : (fd.charSet 0x20).isSome)
    (formatted : formatFontData fd fontEncoding codes = .ok src) : Fits fd codes := by
  intro c mem
  refine ⟨.inr space, fun charWidth own => ?_⟩
  by_contra wider
  rw [formatFontData_wide wf narrow tall space ⟨c, mem, charWidth, own, by omega⟩] at formatted
  cases formatted

/-- A formatting that succeeds drew every requested codepoint, from its own glyph or the
space's. -/
theorem drawn_of_formatFontData {fontEncoding : String}
    (formatted : formatFontData fd fontEncoding codes = .ok src) {c : Int} (mem : c ∈ codes) :
    (fd.charSet c).isSome ∨ (fd.charSet 0x20).isSome := by
  obtain ⟨loop, folded, -⟩ := bind_eq_ok.mp formatted
  obtain ⟨data, found⟩ := charBytesOf_of_foldlM folded c mem
  obtain ⟨charData, drawn, -⟩ := bind_eq_ok.mp found
  unfold charDataOf at drawn
  split at drawn
  · exact .inl (by simp [*])
  · split at drawn
    · exact .inr (by simp [*])
    · cases drawn

/-- Every byte of a glyph drawn from stored glyphs fits a `uint8_t`. -/
theorem lt_of_mem_drawnGlyph (bytes : BytesFit fd) {c : Int} {b : Nat}
    (mem : b ∈ drawnGlyph fd c) : b < 2 ^ 8 := by
  unfold drawnGlyph at mem
  split at mem
  · exact bytes _ _ ‹_› b mem
  · rcases space : fd.charSet 0x20 with _ | g
    · simp [space] at mem
    · exact bytes _ g space b (by simpa [space] using mem)

theorem lt_of_mem_charData (bytes : BytesFit fd) (emitted : Emitted fd codes src) :
    ∀ b ∈ src.charData, b < 2 ^ 8 := by
  intro b mem
  rw [emitted.data] at mem
  obtain ⟨l, found, mem⟩ := List.mem_flatten.mp mem
  obtain ⟨c, -, rfl⟩ := List.mem_map.mp found
  obtain ⟨row, -, mem⟩ := List.mem_flatMap.mp mem
  exact lt_of_mem_drawnGlyph bytes (List.mem_of_mem_drop (List.mem_of_mem_take
    (List.mem_of_mem_take mem)))

/-- **The compiled arrays against the driver's reading.** When every requested glyph fits
the cell's bytes per row and every advance width a `uint8_t`, the arrays as C stores them
agree with the driver's reading exactly when every index entry fits a `uint16_t`. An
entry past it wraps, and the glyph it starts is read from an earlier place in the data. -/
theorem formatFontData_compiled {fontEncoding charSetName : String} (wf : WellFormed fd)
    (narrow : 1 ≤ fd.fontWidth ∧ fd.fontWidth ≤ 32) (named : fd.charSetName = some charSetName)
    (fits : Fits fd codes) (bytes : BytesFit fd)
    (widths : ∀ c ∈ codes, 0 ≤ charWidthOf fd c ∧ charWidthOf fd c < 2 ^ 8)
    (formatted : formatFontData fd fontEncoding codes = .ok src) :
    Addressed fd codes (compiledSource src) ↔
      ∀ charIndex, src.charIndex = some charIndex → ∀ e ∈ charIndex, e < 2 ^ 16 := by
  have emitted := formatFontData_emitted wf narrow named fits formatted
  have addressed := addressed_of wf narrow fits emitted
  constructor
  · intro compiled charIndex indexed
    have wrapped (k : Nat) : glyphStart (compiledSource src) k = glyphStart src k % 2 ^ 16 := by
      rw [glyphStart_compiledSource, indexed, Option.isSome_some, if_pos rfl]
    -- along the tiling, each start is below `2 ^ 16` if the one before it is
    have starts : ∀ k < codes.length, glyphStart src k < 2 ^ 16 := by
      intro k
      induction k with
      | zero => intro h; simp [emitted.start 0 h]
      | succ k ih =>
        intro h
        have stride : glyphStride (compiledSource src) k = glyphStride src k := by
          rw [glyphStride, glyphStride, compiled.width k (by omega), addressed.width k (by omega)]
        have same : glyphStart src (k + 1) % 2 ^ 16 = glyphStart src (k + 1) := by
          rw [← wrapped, compiled.tiles k h, glyphEnd, wrapped, Nat.mod_eq_of_lt (ih (by omega)),
            stride, compiledSource_fontHeight, ← glyphEnd, ← addressed.tiles k h]
        exact (Nat.mod_eq_iff_lt (by decide)).mp same
    rw [emitted.indexTable charIndex indexed]
    intro e mem
    obtain ⟨k, listed, rfl⟩ := List.mem_map.mp mem
    rw [← emitted.start k (List.mem_range.mp listed)]
    exact starts k (List.mem_range.mp listed)
  · intro index
    rwa [compiledSource_eq_self (lt_of_mem_charData bytes emitted) (fun charWidths given w mem => ?_)
      index]
    rw [emitted.widthTable charWidths given] at mem
    obtain ⟨c, listed, rfl⟩ := List.mem_map.mp mem
    exact widths c listed

/-- Byte `j` of row `i` of the `k`-th glyph, as the driver reads it, is byte `j` of row `i`
of the glyph drawn for `codes[k]`. -/
theorem Addressed.getD_glyphRow (addressed : Addressed fd codes src) {k i j : Nat}
    (h : k < codes.length) (row : i < fd.fontHeight.toNat) (col : j < glyphStride src k)
    (narrowRow : glyphStride src k ≤ (byteWidth fd.fontWidth).toNat) :
    (glyphRow src k i).getD j 0 =
      (drawnGlyph fd codes[k]).getD (i * (byteWidth fd.fontWidth).toNat + j) 0 := by
  rw [addressed.rows k h i row, cellRow, List.getD_eq_getElem?_getD, List.getD_eq_getElem?_getD,
    List.getElem?_take_of_lt col, List.getElem?_take_of_lt (by omega), List.getElem?_drop]

end

/-! ## The standard ASCII font -/

section
variable {fd : FontDef} {codes : List Int}

/-- Each codepoint of `codes` has a stored glyph whose advance width is within the cell's
bytes per row, or has none while the space has one. -/
def Covered (fd : FontDef) (codes : List Int) : Prop :=
  ∀ c ∈ codes, ((fd.charSet c).isSome ∧
      ∀ charWidth ∈ fd.charWidths c, 0 ≤ charWidth ∧ charWidth ≤ 8 * byteWidth fd.fontWidth) ∨
    (fd.charSet c = none ∧ (fd.charSet 0x20).isSome)

theorem withAsciiCharSet_wellFormed (wf : WellFormed fd) : WellFormed (withAsciiCharSet fd) :=
  ⟨wf.sameKeys, wf.glyphLength, wf.monospaced⟩

@[simp] theorem emittedBytes_withAsciiCharSet :
    emittedBytes (withAsciiCharSet fd) = emittedBytes fd := rfl

theorem addressed_withAsciiCharSet {src : FontSource} :
    Addressed (withAsciiCharSet fd) codes src ↔ Addressed fd codes src :=
  ⟨fun a => ⟨a.cell, a.widthTable, a.indexTable, a.width, a.rows, a.first, a.tiles, a.last⟩,
    fun a => ⟨a.cell, a.widthTable, a.indexTable, a.width, a.rows, a.first, a.tiles, a.last⟩⟩

theorem fits_of_covered (wf : WellFormed fd) (covered : Covered fd codes) : Fits fd codes := by
  intro c mem
  rcases covered c mem with ⟨own, width⟩ | ⟨missing, space⟩
  · refine ⟨.inl own, fun charWidth stored => ?_⟩
    have := width charWidth stored
    simp only [byteWidth] at this ⊢
    omega
  · refine ⟨.inr space, fun charWidth stored => ?_⟩
    have keys := wf.sameKeys c
    rw [missing, stored] at keys
    cases keys

/-- An 8 by 8 font with baseline 1: a space 4 pixels wide, and the `A` of the format's
description. -/
def spaceAndA : List String :=
  ["FONTBOUNDINGBOX 8 8 0 -1"] ++ spaceBlock ++ letterA ++ ["ENDFONT"]

/-- **Every glyph of a parsed font is a whole cell of packed rows**, `ceil(fontWidth / 8)`
bytes each, stored together with an advance width; and a font still marked monospaced
stores no advance width but the cell's. -/
theorem parseFontBDF_cells {fontName : String} {fileLines : List String}
    (parsed : parseFontBDF fontName fileLines = .ok fd)
    (narrow : 1 ≤ fd.fontWidth ∧ fd.fontWidth ≤ 32) (c : Int) :
    (∀ charData, fd.charSet c = some charData →
      charData.length = fd.fontHeight.toNat * (byteWidth fd.fontWidth).toNat) ∧
    ((fd.charSet c).isSome ↔ (fd.charWidths c).isSome) ∧
    (fd.fontMonospaced = true →
      ∀ charWidth, fd.charWidths c = some charWidth → charWidth = fd.fontWidth) := by
  have wf := parseFontBDF_wellFormed parsed
  refine ⟨fun charData stored => ?_, by rw [wf.sameKeys c], fun mono => wf.monospaced mono c⟩
  rw [wf.glyphLength c charData stored, rowLength_eq_byteWidth narrow]

theorem spaceAndA_cells : ∃ fd, parseFontBDF "spaceAndA" spaceAndA = .ok fd ∧
    (∀ charData, fd.charSet 0x41 = some charData →
      charData.length = fd.fontHeight.toNat * (byteWidth fd.fontWidth).toNat) ∧
    ((fd.charSet 0x41).isSome ↔ (fd.charWidths 0x41).isSome) ∧
    (fd.fontMonospaced = true →
      ∀ charWidth, fd.charWidths 0x41 = some charWidth → charWidth = fd.fontWidth) :=
  ⟨_, rfl, @parseFontBDF_cells _ "spaceAndA" spaceAndA rfl (by decide) 0x41⟩

/-- The advance width the encoder writes for a codepoint of a font whose stored widths all
lie within the cell's bytes per row fits a `uint8_t`. -/
theorem charWidthOf_lt (narrow : 1 ≤ fd.fontWidth ∧ fd.fontWidth ≤ 32) {c : Int}
    (within : ∀ charWidth ∈ fd.charWidths c, 0 ≤ charWidth ∧ charWidth ≤ 8 * byteWidth fd.fontWidth) :
    0 ≤ charWidthOf fd c ∧ charWidthOf fd c < 2 ^ 8 := by
  unfold charWidthOf
  rcases stored : fd.charWidths c with _ | charWidth
  · simp only [Option.getD_none]; omega
  · have := within charWidth stored
    simp only [byteWidth, Option.getD_some] at this ⊢
    omega

/-- **Formatting a font with a glyph wider than the cell's bytes per row** raises
`IndexError`. When every stored advance width lies within the cell's bytes per row it
succeeds: the values it writes agree with the driver's reading, and the arrays as
compiled agree with it exactly when every index entry fits the index's `uint16_t`. -/
theorem formatStandardAsciiCode_wide {fontName : String} {fileLines : List String}
    (parsed : parseFontBDF fontName fileLines = .ok fd)
    (narrow : 1 ≤ fd.fontWidth ∧ fd.fontWidth ≤ 32) (tall : 1 ≤ fd.fontHeight)
    (space : (fd.charSet 0x20).isSome) :
    ((∃ c ∈ asciiCodePoints, ∃ charWidth, fd.charWidths c = some charWidth ∧
        byteWidth fd.fontWidth < byteWidth charWidth) →
      formatStandardAsciiCode fd = .error .indexError) ∧
    ((∀ c ∈ asciiCodePoints, ∀ charWidth ∈ fd.charWidths c,
        0 ≤ charWidth ∧ charWidth ≤ 8 * byteWidth fd.fontWidth) →
      ∃ src, formatStandardAsciiCode fd = .ok src ∧ Addressed fd asciiCodePoints src ∧
        (Addressed fd asciiCodePoints (compiledSource src) ↔
          ∀ charIndex, src.charIndex = some charIndex → ∀ e ∈ charIndex, e < 2 ^ 16)) := by
  have wf := withAsciiCharSet_wellFormed (parseFontBDF_wellFormed parsed)
  refine ⟨formatFontData_wide wf narrow tall space, fun within => ?_⟩
  have fits : Fits (withAsciiCharSet fd) asciiCodePoints := fun c mem =>
    ⟨.inr space, fun charWidth stored => by
      have := within c mem charWidth stored
      simp only [byteWidth, withAsciiCharSet_fontWidth] at this ⊢
      omega⟩
  obtain ⟨src, formatted, addressed⟩ := formatFontData_addressed wf narrow rfl fits
  exact ⟨src, formatted, addressed_withAsciiCharSet.mp addressed,
    addressed_withAsciiCharSet.symm.trans (formatFontData_compiled wf narrow rfl fits
      (fun c g stored => parseFontBDF_bytesFit parsed c g stored)
      (fun c mem => charWidthOf_lt narrow (within c mem)) formatted)⟩

set_option maxRecDepth 4000 in
theorem spaceAndA_formats : ∃ fd, parseFontBDF "spaceAndA" spaceAndA = .ok fd ∧
    ∃ src, formatStandardAsciiCode fd = .ok src ∧ Addressed fd asciiCodePoints src ∧
      (Addressed fd asciiCodePoints (compiledSource src) ↔
        ∀ charIndex, src.charIndex = some charIndex → ∀ e ∈ charIndex, e < 2 ^ 16) :=
  ⟨_, rfl, (@formatStandardAsciiCode_wide _ "spaceAndA" spaceAndA rfl (by decide) (by decide)
    (by decide)).2 (by decide)⟩

/-- A space 8 pixels wide, its one bitmap line in the cell's bottom row. -/
def tallSpace : List String :=
  ["STARTCHAR space", "ENCODING 32", "DWIDTH 8 0", "BBX 8 1 0 0", "BITMAP", "FF", "ENDCHAR"]

/-- A cell 32 pixels wide and 200 high whose one glyph is the tall space. -/
def tallFont : List String := ["FONTBOUNDINGBOX 32 200 0 0"] ++ tallSpace ++ ["ENDFONT"]

set_option maxRecDepth 4000 in
theorem tallFont_parsed : ∃ fd, parseFontBDF "tallFont" tallFont = .ok fd ∧
    fd.fontWidth = 32 ∧ fd.fontHeight = 200 ∧ fd.fontMonospaced = false ∧
    (fd.charSet 0x20).isSome ∧ fd.charWidths 0x20 = some 8 ∧
    ∀ c, c ≠ 0x20 → fd.charWidths c = none := by
  obtain ⟨fd, parsed, width, height, mono, space, spaceWidth⟩ : ∃ fd,
      parseFontBDF "tallFont" tallFont = .ok fd ∧
      fd.fontWidth = 32 ∧ fd.fontHeight = 200 ∧ fd.fontMonospaced = false ∧
      (fd.charSet 0x20).isSome ∧ fd.charWidths 0x20 = some 8 :=
    ⟨_, rfl, rfl, rfl, rfl, rfl, rfl⟩
  refine ⟨fd, parsed, width, height, mono, space, spaceWidth,
    fun c other => Option.not_isSome_iff_eq_none.mp fun stored => ?_⟩
  -- the only block declares the space, and the bounding box stores no width
  have cut : IsCharBlock tallSpace :=
    ⟨_, ["ENCODING 32", "DWIDTH 8 0", "BBX 8 1 0 0", "BITMAP", "FF"], _, rfl, by decide, by decide,
      by decide⟩
  have blocks : parseFontBDF "tallFont" tallFont = fontBoundingBox "tallFont"
      "FONTBOUNDINGBOX 32 200 0 0" >>= fun fd => [tallSpace].foldlM parseFontCharBDF fd :=
    @parseFontBDF_blocks "tallFont" "FONTBOUNDINGBOX 32 200 0 0" "ENDFONT"
      ["FONTBOUNDINGBOX 32 200 0 0"] [] [tallSpace] ⟨[], [], rfl, by simp, by decide, by simp⟩
      (by simpa using cut) (by decide)
  rw [blocks] at parsed
  obtain ⟨fd₀, boxed, folded⟩ := bind_eq_ok.mp parsed
  rcases foldlM_parseFontCharBDF_declared folded c stored with before | ⟨block, mem, declared⟩
  · simp [fontBoundingBox_charWidths boxed] at before
  · rw [List.mem_singleton.mp mem] at declared
    exact other (declared.symm.trans (by decide))

/-- **A font of more than 64 KiB of glyph data is addressed wrongly.** The tall font
parses with every ASCII codepoint drawn and within the cell's bytes per row. Its space
takes 1 byte per row and every other codepoint the cell's 4, so the index is emitted and
runs past `65535`: entry 83 is `65800`, which the `uint16_t` index holds as `264`, and
the compiled arrays no longer agree with the driver's reading. -/
theorem tallFont_indexWraps : ∃ fd src, parseFontBDF "tallFont" tallFont = .ok fd ∧
    (1 ≤ fd.fontWidth ∧ fd.fontWidth ≤ 32) ∧ Covered fd asciiCodePoints ∧
    formatStandardAsciiCode fd = .ok src ∧ src.charIndex.map (·.getD 83 0) = some 65800 ∧
    glyphStart (compiledSource src) 83 = 264 ∧ ¬ Addressed fd asciiCodePoints (compiledSource src) := by
  obtain ⟨fd, parsed, width, height, proportional, space, spaceWidth, others⟩ := tallFont_parsed
  have wf := withAsciiCharSet_wellFormed (parseFontBDF_wellFormed parsed)
  have narrow : 1 ≤ fd.fontWidth ∧ fd.fontWidth ≤ 32 := by omega
  -- the space is within the cell's bytes per row, and every other codepoint missing
  have covered : Covered fd asciiCodePoints := fun c _ => by
    by_cases isSpace : c = 0x20
    · subst isSpace
      refine .inl ⟨space, fun charWidth stored => ?_⟩
      rw [Option.mem_def, spaceWidth, Option.some.injEq] at stored
      subst stored
      rw [width]
      decide
    · have keys := wf.sameKeys c
      rw [withAsciiCharSet_charWidths, others c isSpace] at keys
      exact .inr ⟨by simpa using keys, space⟩
  have fits := fits_of_covered wf covered
  have widths (c : Int) : charWidthOf fd c = if c = 0x20 then 8 else 32 := by
    by_cases space : c = 0x20
    · simp [charWidthOf, space, spaceWidth]
    · simp [charWidthOf, space, others c space, width]
  have lengths : asciiCodePoints.map (fun c => (emittedBytes fd c).length) =
      asciiCodePoints.map fun c => if c = 0x20 then 200 else 800 := by
    refine List.map_congr_left fun c mem => ?_
    have length := length_emittedBytes wf narrow (fits c mem)
    simp only [emittedBytes_withAsciiCharSet, charWidthOf_withAsciiCharSet,
      withAsciiCharSet_fontHeight] at length
    rw [length, widths c, height]
    split <;> decide
  have mixed : (asciiCodePoints.all fun c =>
      (charWidthOf fd c - 1) / 8 == (fd.fontWidth - 1) / 8) = false :=
    List.all_eq_false.mpr ⟨0x20, by decide, by simp [widths, width]⟩
  obtain ⟨src, formatted, index⟩ : ∃ src, formatStandardAsciiCode fd = .ok src ∧
      src.charIndex = some ((List.range asciiCodePoints.length).map fun k =>
        ((asciiCodePoints.map fun c => if c = 0x20 then 200 else 800).take k).sum) :=
    ⟨_, formatFontData_eq rfl fun c mem => charBytesOf_eq wf narrow (fits c mem), by
      simp only [withAsciiCharSet_fontMonospaced, charWidthOf_withAsciiCharSet,
        withAsciiCharSet_fontWidth, emittedBytes_withAsciiCharSet, proportional, mixed,
        Bool.false_or, Bool.false_eq_true, ite_false, lengths]⟩
  have entry : ((List.range asciiCodePoints.length).map fun k =>
      ((asciiCodePoints.map fun c => if c = 0x20 then 200 else 800).take k).sum).getD 83 0 =
      65800 := by
    rw [List.getD_eq_getElem?_getD, List.getElem?_map, List.getElem?_range (by decide)]
    decide
  refine ⟨fd, src, parsed, narrow, covered, formatted, by rw [index, Option.map_some', entry], ?_,
    fun compiled => ?_⟩
  · rw [glyphStart_compiledSource, index, Option.isSome_some, if_pos rfl, glyphStart, index]
    dsimp only
    rw [entry]
    rfl
  · have within := (formatFontData_compiled wf narrow rfl fits
      (fun c g stored => parseFontBDF_bytesFit parsed c g stored)
      (fun c _ => by rw [charWidthOf_withAsciiCharSet, widths c]; split <;> decide)
      formatted).mp (addressed_withAsciiCharSet.mpr compiled) _ index 65800
      (List.mem_map.mpr ⟨83, List.mem_range.mpr (by decide), by decide⟩)
    exact absurd within (by decide)

/-- A one-row font whose space declares an advance width of 16 in a cell 8 wide. -/
def wideSpace : List String :=
  ["FONTBOUNDINGBOX 8 1 0 0", "STARTCHAR space", "ENCODING 32", "DWIDTH 16 0", "BBX 8 1 0 0",
   "BITMAP", "00", "ENDCHAR", "ENDFONT"]

theorem wideSpace_indexError : ∃ fd, parseFontBDF "wideSpace" wideSpace = .ok fd ∧
    fd.fontWidth = 8 ∧ fd.fontHeight = 1 ∧ fd.charWidths 0x20 = some 16 ∧
    formatStandardAsciiCode fd = .error .indexError :=
  ⟨_, rfl, rfl, rfl, rfl, by decide⟩

/-- **A missing codepoint gets the cell width and the space's whole stored rows**, not the
space's own advance width and row bytes: it matches the space's width entry exactly when
the space is as wide as the cell, and its bytes exactly when the space has the cell's
bytes per row. -/
theorem formatStandardAsciiCode_missing {fontName : String} {fileLines : List String}
    {src : FontSource} {charData : List Nat} {charWidth : Int}
    (parsed : parseFontBDF fontName fileLines = .ok fd)
    (narrow : 1 ≤ fd.fontWidth ∧ fd.fontWidth ≤ 32) (tall : 1 ≤ fd.fontHeight)
    (space : fd.charSet 0x20 = some charData) (spaceWidth : fd.charWidths 0x20 = some charWidth)
    (formatted : formatStandardAsciiCode fd = .ok src)
    {k : Nat} (inRange : 0 < k ∧ k < 95) (missing : fd.charSet (0x20 + k) = none) :
    glyphWidth src k = fd.fontWidth ∧ glyphBytes src k = charData ∧
    (glyphWidth src k = glyphWidth src 0 ↔ charWidth = fd.fontWidth) ∧
    (glyphBytes src k = glyphBytes src 0 ↔ byteWidth charWidth = byteWidth fd.fontWidth) := by
  have stored := parseFontBDF_wellFormed parsed
  have wf := withAsciiCharSet_wellFormed stored
  have drawn : (fd.charSet 0x20).isSome := by simp [space]
  have fits := fits_of_formatFontData wf narrow tall drawn formatted
  have emitted := formatFontData_emitted wf narrow rfl fits formatted
  have first : 0 < asciiCodePoints.length := by decide
  have kth : k < asciiCodePoints.length := by simpa [asciiCodePoints] using inRange.2
  rw [emitted.width 0 first, glyphBytes_of wf narrow fits emitted first, emitted.width k kth,
    glyphBytes_of wf narrow fits emitted kth]
  simp only [asciiCodePoints, List.getElem_map, List.getElem_range, Int.natCast_zero, add_zero,
    charWidthOf_withAsciiCharSet, emittedBytes_withAsciiCharSet]
  have noWidth : fd.charWidths (0x20 + k) = none := by
    simpa [missing] using (stored.sameKeys (0x20 + k)).symm
  have cellWidth : charWidthOf fd (0x20 + k) = fd.fontWidth := by simp [charWidthOf, noWidth]
  have spaceCell : charWidthOf fd 0x20 = charWidth := by simp [charWidthOf, spaceWidth]
  have own : emittedBytes fd (0x20 + k) = charData := by
    rw [emittedBytes_full stored narrow (.inr drawn) (by rw [cellWidth])]
    simp [drawnGlyph, missing, space]
  refine ⟨cellWidth, own, by rw [cellWidth, spaceCell, eq_comm], own ▸ ⟨fun same => ?_, fun same => ?_⟩⟩
  · have lengths := congrArg List.length same
    rw [stored.glyphLength _ _ space, rowLength_eq_byteWidth narrow,
      length_emittedBytes stored narrow (fits 0x20 (by decide)), spaceCell] at lengths
    have strides := Nat.eq_of_mul_eq_mul_left (by omega) lengths
    simp only [byteWidth] at strides ⊢
    omega
  · rw [emittedBytes_full stored narrow (.inr drawn) (by rw [spaceCell, same])]
    simp [drawnGlyph, space]

set_option maxRecDepth 4000 in
theorem spaceAndA_exclaim : ∃ fd src, parseFontBDF "spaceAndA" spaceAndA = .ok fd ∧
    formatStandardAsciiCode fd = .ok src ∧ glyphWidth src 1 = fd.fontWidth ∧
    glyphBytes src 1 = List.replicate 8 0 ∧
    (glyphWidth src 1 = glyphWidth src 0 ↔ (4 : Int) = fd.fontWidth) ∧
    (glyphBytes src 1 = glyphBytes src 0 ↔ byteWidth 4 = byteWidth fd.fontWidth) :=
  ⟨_, _, rfl, rfl, @formatStandardAsciiCode_missing _ "spaceAndA" spaceAndA _ _ _ rfl (by decide)
    (by decide) rfl rfl rfl 1 ⟨by decide, by decide⟩ rfl⟩

/-- A one-row font whose space is 4 pixels wide in a cell 8 wide. -/
def narrowSpace : List String :=
  ["FONTBOUNDINGBOX 8 1 0 0", "STARTCHAR space", "ENCODING 32", "DWIDTH 4 0", "BBX 8 1 0 0",
   "BITMAP", "00", "ENDCHAR", "ENDFONT"]

set_option maxRecDepth 4000 in
theorem narrowSpace_widths : ∃ fd src, parseFontBDF "narrowSpace" narrowSpace = .ok fd ∧
    fd.charSet 0x21 = none ∧ formatStandardAsciiCode fd = .ok src ∧
    glyphWidth src 0 = 4 ∧ glyphWidth src 1 = 8 :=
  ⟨_, _, rfl, rfl, rfl, rfl, rfl⟩

end

end GmosFontGen.Addressing
