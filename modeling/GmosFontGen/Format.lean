import GmosFontGen.Grammar

/-! `formatFontData` and the functions around it: the loop over the requested codepoints
that fills the data, width and index arrays, the choice among the three templates, and
`formatStandardAsciiCode`, `formatFontHeader` and the body of `main` for one font file.
The model returns what each template is filled with, the arrays as lists; the C text the
templates spell them out in is not modelled. -/
namespace GmosFontGen.Format
open Python ParseChar ParseFont Grammar

/-- `((width - 1) // 8) + 1`, the bytes a row `width` pixels wide takes. -/
def byteWidth (width : Int) : Int := (width - 1) / 8 + 1

/-- `codePoint in charWidths`: the glyph's advance width, or the cell width. -/
def charWidthOf (fd : FontDef) (codePoint : Int) : Int := (fd.charWidths codePoint).getD fd.fontWidth

/-- "Substitute a space for undefined characters." -/
def charDataOf (fd : FontDef) (codePoint : Int) : Except PyError (List Nat) :=
  match fd.charSet codePoint with
  | some charData => pure charData
  | none => match fd.charSet 0x20 with
    | some charData => pure charData
    | none => throw (.keyError "32")

/-- "Copy the character data, trimming excess octets": for each cell row `i` and each of
the `ceil(charWidth / 8)` bytes `j`, `charData[i * ceil(fontWidth / 8) + j]`. -/
def copyCharData (fontWidth fontHeight charWidth : Int) (charData : List Nat) :
    Except PyError (List Nat) :=
  List.flatten <$> (List.range fontHeight.toNat).mapM fun (i : Nat) =>
    (List.range (byteWidth charWidth).toNat).mapM fun (j : Nat) =>
      pyIndex charData (i * byteWidth fontWidth + j)

/-- The data bytes emitted for one codepoint. -/
def charBytesOf (fd : FontDef) (codePoint : Int) : Except PyError (List Nat) :=
  charDataOf fd codePoint >>= copyCharData fd.fontWidth fd.fontHeight (charWidthOf fd codePoint)

/-- What one codepoint adds to the three arrays. -/
structure CharEntry where
  /-- The `charIndexBlock` entry, the running count `charIndex` of data bytes. -/
  index : Nat
  /-- The `charWidthsBlock` entry. -/
  width : Int
  /-- The bytes added to `charDataBlock`. -/
  data : List Nat
  deriving DecidableEq, Repr

/-- The accumulators of `formatFontData`'s loop. -/
structure FontLoop where
  entries : List CharEntry
  charIndex : Nat
  omitCharIndex : Bool
  deriving DecidableEq, Repr

/-- One pass of `formatFontData`'s loop: the index entry, the width entry, the check for a
large font, and the glyph's bytes. -/
def formatChar (fd : FontDef) (loop : FontLoop) (codePoint : Int) : Except PyError FontLoop := do
  let charWidth := charWidthOf fd codePoint
  let data ← charBytesOf fd codePoint
  pure { entries := loop.entries ++ [⟨loop.charIndex, charWidth, data⟩],
         charIndex := loop.charIndex + data.length,
         omitCharIndex := loop.omitCharIndex && (charWidth - 1) / 8 == (fd.fontWidth - 1) / 8 }

/-- Python's `\w` on an ASCII character: a letter, a digit or `_`. Python 3 also takes
every other Unicode letter and digit as a word character; the model takes font names to
be ASCII. -/
def isWordChar (c : Char) : Bool := c.isAlphanum || c = '_'

/-- `re.sub("\W+", "_", text)`: each maximal run of non-word characters becomes one
underscore; `inRun` says the previous character was one of a run. -/
def subNonWord (inRun : Bool) : List Char → List Char
  | [] => []
  | c :: cs =>
    if isWordChar c then c :: subNonWord false cs
    else if inRun then subNonWord true cs
    else '_' :: subNonWord true cs

/-- The font name made a safe C identifier. -/
def safeFontName (fontName : String) : String := ⟨subNonWord false fontName.data⟩

/-- `"Monospaced"` or `"Proportional"`. -/
def fontSpacing (fd : FontDef) : String := if fd.fontMonospaced then "Monospaced" else "Proportional"

/-- `fontDef["charSetName"]`. -/
def charSetNameOf (fd : FontDef) : Except PyError String :=
  match fd.charSetName with
  | some name => pure name
  | none => throw (.keyError "'charSetName'")

/-- The values `formatFontData` fills its template with. The width array is emitted by
the two proportional templates, the index array by the indexed one. -/
structure FontSource where
  fontName : String
  safeFontName : String
  charSetName : String
  fontEncoding : String
  fontSpacing : String
  fontWidth : Int
  fontHeight : Int
  fontBaseline : Int
  /-- `gmosDisplayFontCharData`. -/
  charData : List Nat
  /-- `gmosDisplayFontCharWidths`. -/
  charWidths : Option (List Int)
  /-- `gmosDisplayFontCharIndex`. -/
  charIndex : Option (List Nat)
  deriving DecidableEq, Repr

/-- `formatFontData(fontDef, fontEncoding, codePointList)`: the monospaced template, the
proportional one when every glyph has the cell's byte width, the indexed one otherwise. -/
def formatFontData (fd : FontDef) (fontEncoding : String) (codePointList : List Int) :
    Except PyError FontSource := do
  let loop ← codePointList.foldlM (formatChar fd) ⟨[], 0, true⟩
  let charSetName ← charSetNameOf fd
  pure { fontName := fd.fontName, safeFontName := safeFontName fd.fontName, charSetName,
         fontEncoding, fontSpacing := fontSpacing fd, fontWidth := fd.fontWidth,
         fontHeight := fd.fontHeight, fontBaseline := fd.fontBaseline,
         charData := (loop.entries.map CharEntry.data).flatten,
         charWidths := if fd.fontMonospaced then none else some (loop.entries.map CharEntry.width),
         charIndex := if fd.fontMonospaced || loop.omitCharIndex then none
           else some (loop.entries.map CharEntry.index) }

/-- `range(0x20, 0x7F)`: space to tilde. -/
def asciiCodePoints : List Int := (List.range 95).map fun (k : Nat) => 0x20 + (k : Int)

/-- The definition after `formatStandardAsciiCode`'s assignment
`fontDef["charSetName"] = "ASCII"`, which the caller's definition keeps. -/
def withAsciiCharSet (fd : FontDef) : FontDef := { fd with charSetName := some "ASCII" }

@[simp] theorem withAsciiCharSet_charSet (fd : FontDef) :
    (withAsciiCharSet fd).charSet = fd.charSet := rfl
@[simp] theorem withAsciiCharSet_charWidths (fd : FontDef) :
    (withAsciiCharSet fd).charWidths = fd.charWidths := rfl
@[simp] theorem withAsciiCharSet_fontWidth (fd : FontDef) :
    (withAsciiCharSet fd).fontWidth = fd.fontWidth := rfl
@[simp] theorem withAsciiCharSet_fontHeight (fd : FontDef) :
    (withAsciiCharSet fd).fontHeight = fd.fontHeight := rfl
@[simp] theorem withAsciiCharSet_fontBaseline (fd : FontDef) :
    (withAsciiCharSet fd).fontBaseline = fd.fontBaseline := rfl
@[simp] theorem withAsciiCharSet_fontMonospaced (fd : FontDef) :
    (withAsciiCharSet fd).fontMonospaced = fd.fontMonospaced := rfl
@[simp] theorem charWidthOf_withAsciiCharSet (fd : FontDef) :
    charWidthOf (withAsciiCharSet fd) = charWidthOf fd := rfl

/-- `formatStandardAsciiCode(fontDef)`. -/
def formatStandardAsciiCode (fd : FontDef) : Except PyError FontSource :=
  formatFontData (withAsciiCharSet fd) "GMOS_DISPLAY_FONT_ENCODING_ASCII" asciiCodePoints

/-- The values `formatFontHeader` fills the header template with. -/
structure FontHeader where
  fontName : String
  safeFontName : String
  fontSpacing : String
  fontHeight : Int
  fontWidth : Int
  charSetName : String
  deriving DecidableEq, Repr

/-- `formatFontHeader(fontDef)`. -/
def formatFontHeader (fd : FontDef) : Except PyError FontHeader := do
  let charSetName ← charSetNameOf fd
  pure { fontName := fd.fontName, safeFontName := safeFontName fd.fontName,
         fontSpacing := fontSpacing fd, fontHeight := fd.fontHeight, fontWidth := fd.fontWidth,
         charSetName }

/-- The body of `main`'s loop for one font file: parse it, format its source code, then
its header entry from the definition `formatStandardAsciiCode` has named. -/
def generateFont (fontName : String) (fileLines : List String) :
    Except PyError (FontSource × FontHeader) := do
  let fd ← parseFontBDF fontName fileLines
  let source ← formatStandardAsciiCode fd
  let header ← formatFontHeader (withAsciiCharSet fd)
  pure (source, header)

theorem toOption_bind_congr {x y : Except PyError α} {f : α → Except PyError β}
    (same : x.toOption = y.toOption) : (x >>= f).toOption = (y >>= f).toOption := by
  cases x <;> cases y <;> cases same <;> rfl

/-- **The order of a file's glyph blocks does not matter.** Reordering glyph blocks of
pairwise distinct declared codepoints, with any other lines among them, the lines up to
the `FONTBOUNDINGBOX` line and from the `ENDFONT` line kept in place, changes neither the
parsed definition nor the source and header entry generated from it, nor whether they
are generated at all. -/
theorem generateFont_perm {fontName box endLine : String} {pre body body' tail : List String}
    {blocks blocks' : List (List String)}
    (before : ∀ line ∈ pre, startswith line "FONTBOUNDINGBOX" = false)
    (isBox : startswith box "FONTBOUNDINGBOX" = true) (shaped : CharSection body blocks)
    (shaped' : CharSection body' blocks') (ends : startswith endLine "ENDFONT" = true)
    (perm : blocks.Perm blocks') (distinct : (blocks.map (declaredCodePoint (-1))).Nodup) :
    (parseFontBDF fontName (pre ++ box :: (body ++ endLine :: tail))).toOption =
      (parseFontBDF fontName (pre ++ box :: (body' ++ endLine :: tail))).toOption ∧
    (generateFont fontName (pre ++ box :: (body ++ endLine :: tail))).toOption =
      (generateFont fontName (pre ++ box :: (body' ++ endLine :: tail))).toOption := by
  have same : (parseFontBDF fontName (pre ++ box :: (body ++ endLine :: tail))).toOption = _ :=
    parseFontBDF_perm before isBox shaped shaped' ends perm distinct
  exact ⟨same, toOption_bind_congr same⟩

/-- The space and the `A`, with a comment line between them, in either order. -/
theorem swapped_blocks_generate_alike :
    (generateFont "A" ([] ++ "FONTBOUNDINGBOX 8 8 0 -1" ::
        ((spaceBlock ++ "COMMENT swapped" :: letterA) ++ "ENDFONT" :: []))).toOption =
      (generateFont "A" ([] ++ "FONTBOUNDINGBOX 8 8 0 -1" ::
        ((letterA ++ "COMMENT swapped" :: spaceBlock) ++ "ENDFONT" :: []))).toOption := by
  have single {block : List String} (cut : IsCharBlock block) : CharSection block [block] := by
    simpa using CharSection.block cut .nil
  have spaceFirst : CharSection (spaceBlock ++ "COMMENT swapped" :: letterA) [spaceBlock, letterA] :=
    .block spaceBlock_isCharBlock (.quiet (by decide) (by decide) (single letterA_isCharBlock))
  have letterFirst : CharSection (letterA ++ "COMMENT swapped" :: spaceBlock) [letterA, spaceBlock] :=
    .block letterA_isCharBlock (.quiet (by decide) (by decide) (single spaceBlock_isCharBlock))
  exact (generateFont_perm (by simp) (by decide) spaceFirst letterFirst (by decide)
    (List.Perm.swap letterA spaceBlock []) (by decide)).2

/-! ## The loop of `formatFontData` -/

/-- The entries the loop makes for `codes` when codepoint `c` emits `bytes c`, the first
at data offset `start`. -/
def entriesFrom (fd : FontDef) (bytes : Int → List Nat) : Nat → List Int → List CharEntry
  | _, [] => []
  | start, c :: cs =>
    ⟨start, charWidthOf fd c, bytes c⟩ :: entriesFrom fd bytes (start + (bytes c).length) cs

/-- **Run lemma.** When every codepoint's bytes are there, the loop appends one entry per
codepoint, its index the running byte count. -/
theorem foldlM_formatChar {fd : FontDef} {bytes : Int → List Nat} :
    ∀ {codes : List Int} (loop : FontLoop), (∀ c ∈ codes, charBytesOf fd c = .ok (bytes c)) →
    codes.foldlM (formatChar fd) loop = .ok
      { entries := loop.entries ++ entriesFrom fd bytes loop.charIndex codes,
        charIndex := loop.charIndex + (codes.map fun c => (bytes c).length).sum,
        omitCharIndex := loop.omitCharIndex &&
          codes.all fun c => (charWidthOf fd c - 1) / 8 == (fd.fontWidth - 1) / 8 } := by
  intro codes
  induction codes with
  | nil => intro loop _; simp [entriesFrom]; rfl
  | cons c cs ih =>
    intro loop found
    simp only [List.mem_cons, forall_eq_or_imp] at found
    simp only [List.foldlM_cons, formatChar, found.1, ok_bind, pure_bind]
    rw [ih _ found.2]
    simp [entriesFrom, Nat.add_assoc, Bool.and_assoc]

/-- A failing codepoint fails the loop, with the error every failing codepoint raises. -/
theorem foldlM_formatChar_error {fd : FontDef} {err : PyError} :
    ∀ {codes : List Int} (loop : FontLoop),
      (∀ c ∈ codes, ∀ e, charBytesOf fd c = .error e → e = err) →
      (∃ c ∈ codes, ∃ e, charBytesOf fd c = .error e) →
      codes.foldlM (formatChar fd) loop = .error err := by
  intro codes
  induction codes with
  | nil => intro loop _ failing; simp at failing
  | cons c cs ih =>
    intro loop only failing
    simp only [List.mem_cons, forall_eq_or_imp, exists_eq_or_imp] at only failing
    simp only [List.foldlM_cons, formatChar]
    rcases bytes : charBytesOf fd c with e | data
    · rw [only.1 e bytes]; rfl
    · simp only [ok_bind]
      refine ih _ only.2 (failing.resolve_left ?_)
      rintro ⟨e, failed⟩
      rw [bytes] at failed
      cases failed

theorem map_data_entriesFrom (fd : FontDef) (bytes : Int → List Nat) :
    ∀ (start : Nat) (codes : List Int),
      (entriesFrom fd bytes start codes).map CharEntry.data = codes.map bytes := by
  intro start codes
  induction codes generalizing start with
  | nil => rfl
  | cons c cs ih => simp [entriesFrom, ih]

theorem map_width_entriesFrom (fd : FontDef) (bytes : Int → List Nat) :
    ∀ (start : Nat) (codes : List Int),
      (entriesFrom fd bytes start codes).map CharEntry.width = codes.map (charWidthOf fd) := by
  intro start codes
  induction codes generalizing start with
  | nil => rfl
  | cons c cs ih => simp [entriesFrom, ih]

/-- The `k`-th index entry is the number of bytes the codepoints before it emit. -/
theorem map_index_entriesFrom (fd : FontDef) (bytes : Int → List Nat) :
    ∀ (start : Nat) (codes : List Int),
      (entriesFrom fd bytes start codes).map CharEntry.index =
        (List.range codes.length).map fun k =>
          start + ((codes.map fun c => (bytes c).length).take k).sum := by
  intro start codes
  induction codes generalizing start with
  | nil => rfl
  | cons c cs ih =>
    simp only [entriesFrom, List.map_cons, ih, List.length_cons, List.range_succ_eq_map,
      List.take_zero, List.sum_nil, Nat.add_zero, List.map_map, List.take_succ_cons,
      List.sum_cons, true_and, List.cons.injEq]
    congr 1
    funext k
    simp [Nat.add_assoc]

/-- **The values `formatFontData` fills its template with**, when every requested
codepoint's bytes are there. -/
theorem formatFontData_eq {fd : FontDef} {fontEncoding charSetName : String}
    {codes : List Int} {bytes : Int → List Nat} (named : fd.charSetName = some charSetName)
    (each : ∀ c ∈ codes, charBytesOf fd c = .ok (bytes c)) :
    formatFontData fd fontEncoding codes = .ok
      { fontName := fd.fontName, safeFontName := safeFontName fd.fontName, charSetName,
        fontEncoding, fontSpacing := fontSpacing fd, fontWidth := fd.fontWidth,
        fontHeight := fd.fontHeight, fontBaseline := fd.fontBaseline,
        charData := (codes.map bytes).flatten,
        charWidths := if fd.fontMonospaced then none else some (codes.map (charWidthOf fd)),
        charIndex :=
          if fd.fontMonospaced ||
              codes.all fun c => (charWidthOf fd c - 1) / 8 == (fd.fontWidth - 1) / 8 then none
          else some ((List.range codes.length).map fun k =>
            ((codes.map fun c => (bytes c).length).take k).sum) } := by
  rw [formatFontData, foldlM_formatChar _ each]
  simp [charSetNameOf, named, map_data_entriesFrom, map_width_entriesFrom,
    map_index_entriesFrom]

theorem charBytesOf_of_foldlM {fd : FontDef} :
    ∀ {codes : List Int} {loop loop' : FontLoop}, codes.foldlM (formatChar fd) loop = .ok loop' →
      ∀ c ∈ codes, ∃ data, charBytesOf fd c = .ok data
  | [], _, _, _ => by simp
  | c :: cs, loop, loop', ran => by
    rw [List.foldlM_cons, bind_eq_ok] at ran
    obtain ⟨next, first, rest⟩ := ran
    rw [formatChar, bind_eq_ok] at first
    obtain ⟨data, found, -⟩ := first
    simp only [List.mem_cons, forall_eq_or_imp]
    exact ⟨⟨data, found⟩, charBytesOf_of_foldlM rest⟩

/-- **The layout `formatFontData` chooses**: no width table exactly for a definition still
marked monospaced, and no index exactly when, besides, every requested glyph has the
cell's bytes per row. -/
theorem formatFontData_layout {fd : FontDef} {fontEncoding : String} {codes : List Int}
    {src : FontSource} (formatted : formatFontData fd fontEncoding codes = .ok src) :
    (src.charWidths = none ↔ fd.fontMonospaced = true) ∧
    (src.charIndex = none ↔ fd.fontMonospaced = true ∨
      ∀ c ∈ codes, byteWidth (charWidthOf fd c) = byteWidth fd.fontWidth) := by
  have ran := formatted
  rw [formatFontData, bind_eq_ok] at ran
  obtain ⟨loop, folded, ran⟩ := ran
  rw [bind_eq_ok] at ran
  obtain ⟨charSetName, named, -⟩ := ran
  replace named : fd.charSetName = some charSetName := by
    unfold charSetNameOf at named
    split at named <;> cases named
    assumption
  have each : ∀ c ∈ codes, charBytesOf fd c = .ok ((charBytesOf fd c).toOption.getD []) := by
    intro c mem
    obtain ⟨data, found⟩ := charBytesOf_of_foldlM folded c mem
    simp [found, Except.toOption]
  rw [formatFontData_eq named each] at formatted
  cases formatted
  constructor
  · cases fd.fontMonospaced <;> simp
  · cases fd.fontMonospaced <;> simp [byteWidth]

theorem spaceAndA_layout : ∃ fd src, parseFontBDF "A" (["FONTBOUNDINGBOX 8 8 0 -1"] ++
      spaceBlock ++ letterA ++ ["ENDFONT"]) = .ok fd ∧
    formatFontData (withAsciiCharSet fd) "ASCII" [0x20, 0x41] = .ok src ∧
    (src.charWidths = none ↔ (withAsciiCharSet fd).fontMonospaced = true) ∧
    (src.charIndex = none ↔ (withAsciiCharSet fd).fontMonospaced = true ∨
      ∀ c ∈ [(0x20 : Int), 0x41], byteWidth (charWidthOf (withAsciiCharSet fd) c) =
        byteWidth (withAsciiCharSet fd).fontWidth) :=
  ⟨_, _, rfl, rfl, formatFontData_layout rfl⟩

/-! ## Copying one glyph -/

/-- Reading `n` consecutive entries from `offset` is taking them. -/
theorem map_getD_range {l : List Nat} {offset n : Nat} (fits : offset + n ≤ l.length) :
    (List.range n).map (fun j => l.getD (offset + j) 0) = (l.drop offset).take n := by
  apply List.ext_getElem
  · simp; omega
  · intro j lt _
    simp only [List.length_map, List.length_range] at lt
    simp [List.getElem?_eq_getElem (by omega : offset + j < l.length)]

/-- **The copy of a glyph whose advance width fits the cell**: for each cell row, the
row's first `ceil(charWidth / 8)` bytes. -/
theorem copyCharData_eq {fontWidth fontHeight charWidth : Int} {charData : List Nat}
    (positive : 1 ≤ fontWidth) (fits : byteWidth charWidth ≤ byteWidth fontWidth)
    (length : charData.length = fontHeight.toNat * (byteWidth fontWidth).toNat) :
    copyCharData fontWidth fontHeight charWidth charData = .ok ((List.range fontHeight.toNat).flatMap
      fun i => (charData.drop (i * (byteWidth fontWidth).toNat)).take (byteWidth charWidth).toNat) := by
  have stride : byteWidth fontWidth = ((byteWidth fontWidth).toNat : Int) := by
    rw [Int.toNat_of_nonneg]; simp only [byteWidth]; omega
  have narrow : (byteWidth charWidth).toNat ≤ (byteWidth fontWidth).toNat := by omega
  rw [copyCharData, List.flatMap, @mapM_eq_ok _ _ _ (fun i => (charData.drop (i *
    (byteWidth fontWidth).toNat)).take (byteWidth charWidth).toNat)]
  · rfl
  intro i row
  rw [List.mem_range] at row
  have room : i * (byteWidth fontWidth).toNat + (byteWidth charWidth).toNat ≤ charData.length := by
    rw [length]
    calc i * (byteWidth fontWidth).toNat + (byteWidth charWidth).toNat
        ≤ i * (byteWidth fontWidth).toNat + (byteWidth fontWidth).toNat := by omega
      _ = (i + 1) * (byteWidth fontWidth).toNat := by rw [Nat.succ_mul]
      _ ≤ fontHeight.toNat * (byteWidth fontWidth).toNat := Nat.mul_le_mul_right _ row
  rw [← map_getD_range room]
  refine mapM_eq_ok fun j col => ?_
  rw [List.mem_range] at col
  rw [stride, ← Int.natCast_mul, ← Int.natCast_add, pyIndex_of_lt (by omega),
    List.getD_eq_getElem?_getD, List.getElem?_eq_getElem]
  rfl

/-- The copy raises nothing but `IndexError`. -/
theorem copyCharData_error_only {fontWidth fontHeight charWidth : Int} {charData : List Nat}
    {e : PyError} (raised : copyCharData fontWidth fontHeight charWidth charData = .error e) :
    e = .indexError := by
  rcases rows : (List.range fontHeight.toNat).mapM (fun (i : Nat) =>
      (List.range (byteWidth charWidth).toNat).mapM fun (j : Nat) =>
        pyIndex charData (i * byteWidth fontWidth + j)) with e' | rows
  · rw [copyCharData, rows, map_error] at raised
    cases raised
    obtain ⟨i, -, row⟩ := exists_of_mapM_eq_error rows
    obtain ⟨j, -, read⟩ := exists_of_mapM_eq_error row
    exact pyIndex_error read
  · rw [copyCharData, rows, map_ok] at raised
    cases raised

/-- **A glyph wider than the cell's bytes per row**: the copy of the last cell row reads
past the glyph's data. -/
theorem copyCharData_error {fontWidth fontHeight charWidth : Int} {charData : List Nat}
    (positive : 1 ≤ fontWidth) (tall : 1 ≤ fontHeight)
    (wide : byteWidth fontWidth < byteWidth charWidth)
    (length : charData.length = fontHeight.toNat * (byteWidth fontWidth).toNat) :
    copyCharData fontWidth fontHeight charWidth charData = .error .indexError := by
  have stride : byteWidth fontWidth = ((byteWidth fontWidth).toNat : Int) := by
    rw [Int.toNat_of_nonneg]; simp only [byteWidth]; omega
  have lastRow : (fontHeight.toNat - 1) * (byteWidth fontWidth).toNat +
      (byteWidth fontWidth).toNat = charData.length := by
    rw [length, ← Nat.succ_mul, Nat.succ_eq_add_one, Nat.sub_add_cancel (by omega)]
  rw [copyCharData, @mapM_eq_error _ _ _ .indexError]
  · rfl
  · intro i _ e raised
    obtain ⟨j, -, read⟩ := exists_of_mapM_eq_error raised
    exact pyIndex_error read
  · refine ⟨fontHeight.toNat - 1, List.mem_range.mpr (by omega), .indexError, ?_⟩
    refine mapM_eq_error (fun j _ e read => pyIndex_error read)
      ⟨(byteWidth fontWidth).toNat, List.mem_range.mpr (by omega), .indexError, ?_⟩
    rw [stride, ← Int.natCast_mul, ← Int.natCast_add, Int.toNat_natCast, lastRow]
    exact pyIndex_of_le (le_refl _)

end GmosFontGen.Format
