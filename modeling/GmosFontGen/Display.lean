import GmosFontGen.Pixels

/-! What the display driver draws for a font the tool generated. The pieces are proved
apart: the parser stores each glyph block's rows under its codepoint and a later block
with another codepoint leaves them there (`foldlM_parseFontCharBDF_stored`); each stored
bit is a pixel of the block's bitmap (`testBit_cellBytes`); the arrays
`formatStandardAsciiCode` emits hand the driver the start of each stored row
(`Addressed`); and as C compiles them they keep the values written wherever those fit
the arrays' types (`glyphRow_compiledSource`). `generateFont_pixels` puts them together:
from the lines of a BDF file to the bits the driver reads out of the compiled C arrays. -/
namespace GmosFontGen.Display
open Python ParseChar ParseFont Grammar Format Addressing Pixels

/-- The `k`-th ASCII codepoint is `0x20 + k`. -/
theorem getElem_asciiCodePoints {k : Nat} (h : k < asciiCodePoints.length) :
    asciiCodePoints[k] = 0x20 + (k : Int) := by
  simp [asciiCodePoints]

theorem length_asciiCodePoints : asciiCodePoints.length = 95 := by
  simp [asciiCodePoints]

/-- **The driver draws the BDF glyph.** Take a font file made of a header whose
`FONTBOUNDINGBOX` line gives a cell at most 32 pixels wide, glyph blocks of distinct
codepoints and an `ENDFONT` line, for which the loop body of `main` generates a source and
a header entry whose index entries, if it has an index, fit its `uint16_t`. Let one of its
blocks declare the ASCII codepoint `0x20 + k` and an advance width `scan.charWidth ≥ 0`,
and give, before `BITMAP`, a box `w` wide and `h` high at offsets `xo ≥ 0` and `yo` inside
the cell, followed by `h` hex lines. Then the driver, reading the arrays as compiled, takes
that advance width for the `k`-th glyph, and bit `x` of row `r` of it, for each column its
advance width's bytes hold, is the pixel at column `x - xo` of bitmap line
`r - (H - b - yo - h)`, or `0` outside the box. -/
theorem generateFont_pixels {fontName box endLine : String} {header tail : List String}
    {blocks : List (List String)} {fd₀ : FontDef} {source : FontSource} {entry : FontHeader}
    (head : IsFontHeader header box) (boxed : fontBoundingBox fontName box = .ok fd₀)
    (cell : 1 ≤ fd₀.fontWidth ∧ fd₀.fontWidth ≤ 32 ∧ 1 ≤ fd₀.fontHeight)
    (cut : ∀ block ∈ blocks, IsCharBlock block) (ends : startswith endLine "ENDFONT" = true)
    (distinct : (blocks.map (declaredCodePoint (-1))).Nodup)
    (generated : generateFont fontName (header ++ blocks.flatten ++ endLine :: tail) =
      .ok (source, entry))
    (index : ∀ charIndex, source.charIndex = some charIndex → ∀ e ∈ charIndex, e < 2 ^ 16)
    {block rows rest : List String} {scan : CharScan} {w yo : Int} {xo k : Nat}
    {more : List Int} {vs : List Nat}
    (mem : block ∈ blocks) (code : declaredCodePoint (-1) block = 0x20 + (k : Int))
    (ascii : k < 95)
    (glyphHeader : scanCharHeader fd₀.fontWidth fd₀.fontHeight fd₀.fontBaseline
      (CharScan.init fd₀.fontWidth) block = .ok (.bitmap scan (rows ++ rest)))
    (advance : 0 ≤ scan.charWidth)
    (bbx : scan.bounds = some (w :: vs.length :: xo :: yo :: more))
    (glyph : 1 ≤ w ∧ w ≤ 32) (inside : fd₀.fontBaseline + yo + vs.length ≤ fd₀.fontHeight)
    (hex : rows.map (pyInt 16) = vs.map fun v => .ok (v : Int))
    (fits : ∀ v ∈ vs, v < 2 ^ (8 * (byteWidth w).toNat)) :
    glyphWidth (compiledSource source) k = scan.charWidth ∧
    ∀ r < fd₀.fontHeight.toNat, ∀ x < 8 * (byteWidth scan.charWidth).toNat,
      let s : Int := r - (fd₀.fontHeight - fd₀.fontBaseline - yo - vs.length)
      ((glyphRow (compiledSource source) k r).getD (x / 8) 0).testBit (x % 8) =
        (decide (0 ≤ s ∧ s < vs.length ∧ xo ≤ x ∧ x - xo < 8 * (byteWidth w).toNat) &&
          (vs.getD s.toNat 0).testBit (8 * (byteWidth w).toNat - 1 - (x - xo))) := by
  -- the parse and the definition behind the source
  obtain ⟨fd, parsed, generated⟩ := bind_eq_ok.mp generated
  obtain ⟨src, formatted, generated⟩ := bind_eq_ok.mp generated
  obtain ⟨hdr, -, generated⟩ := bind_eq_ok.mp generated
  cases generated
  have wf := withAsciiCharSet_wellFormed (parseFontBDF_wellFormed parsed)
  have bytes : BytesFit (withAsciiCharSet fd) := fun c g found => parseFontBDF_bytesFit parsed c g found
  rw [parseFontBDF_blocks head cut ends, boxed, ok_bind] at parsed
  obtain ⟨width, height, baseline⟩ := foldlM_parseFontCharBDF_cell parsed
  have narrow : 1 ≤ fd.fontWidth ∧ fd.fontWidth ≤ 32 := by omega
  -- the block's glyph, stored under its codepoint
  obtain ⟨left, lower, upper⟩ := padded_of_header glyphHeader bbx
  have effect := charEffect_cells glyphHeader (by omega) (by omega) (by omega) bbx hex
  have codePoint : scan.codePoint = declaredCodePoint (-1) block :=
    scanCharHeader_codePoint glyphHeader
  have stored := foldlM_parseFontCharBDF_stored distinct mem parsed effect rfl
  rw [codePoint, code] at stored
  -- the arrays the encoder writes
  have kth : k < asciiCodePoints.length := by rw [length_asciiCodePoints]; exact ascii
  have spaceListed : (0x20 : Int) ∈ asciiCodePoints := List.mem_map.mpr ⟨0, by simp, rfl⟩
  have space := (drawn_of_formatFontData formatted spaceListed).elim id id
  have fitting := fits_of_formatFontData wf narrow (show 1 ≤ fd.fontHeight by omega) space
    formatted
  have emitted := formatFontData_emitted wf narrow rfl fitting formatted
  have addressed := addressed_withAsciiCharSet.mp (addressed_of wf narrow fitting emitted)
  have advanceWidth : glyphWidth source k = scan.charWidth := by
    rw [emitted.width k kth, getElem_asciiCodePoints kth, charWidthOf_withAsciiCharSet, charWidthOf,
      stored.2, Option.getD_some]
  have stride : glyphStride source k = (byteWidth scan.charWidth).toNat := by
    rw [glyphStride, advanceWidth]
  have narrowRow : glyphStride source k ≤ (byteWidth fd.fontWidth).toNat := by
    rw [glyphStride, emitted.width k kth]
    exact Int.toNat_le_toNat (charWidthOf_le (fitting _ (List.getElem_mem kth)).2)
  -- the arrays as compiled: the width fits a `uint8_t`, the bytes and the index theirs
  have compiledWidth : glyphWidth (compiledSource source) k = glyphWidth source k := by
    refine glyphWidth_compiledSource_of_lt ⟨advanceWidth ▸ advance, ?_⟩
    have := (fitting _ (List.getElem_mem kth)).2 scan.charWidth
      (by rw [getElem_asciiCodePoints kth]; exact stored.2)
    simp only [byteWidth, withAsciiCharSet_fontWidth] at this
    omega
  have compiledRow (r : Nat) : glyphRow (compiledSource source) k r = glyphRow source k r :=
    glyphRow_compiledSource (lt_of_mem_charData bytes emitted)
      (glyphStart_compiledSource_of_lt index k) (by rw [glyphStride, glyphStride, compiledWidth]) r
  refine ⟨compiledWidth.trans advanceWidth, fun r row x col => ?_⟩
  have inCell : x < 8 * (byteWidth fd₀.fontWidth).toNat := by rw [← width]; omega
  rw [compiledRow, addressed.getD_glyphRow kth (by rwa [height]) (Nat.div_lt_of_lt_mul (stride ▸ col))
    narrowRow, getElem_asciiCodePoints kth]
  simp only [drawnGlyph, stored.1, width]
  exact testBit_cellBytes ⟨cell.1, cell.2.1⟩ glyph left (by omega) (by omega) fits row inCell

set_option maxRecDepth 4000 in
theorem letterA_drawn : ∃ fd₀ source entry,
    fontBoundingBox "A" "FONTBOUNDINGBOX 8 8 0 -1" = .ok fd₀ ∧
    generateFont "A" (["FONTBOUNDINGBOX 8 8 0 -1"] ++ [spaceBlock, letterA].flatten ++
      "ENDFONT" :: []) = .ok (source, entry) ∧
    (∀ charIndex, source.charIndex = some charIndex → ∀ e ∈ charIndex, e < 2 ^ 16) ∧
    glyphWidth (compiledSource source) 33 = 8 ∧
    ∀ r < fd₀.fontHeight.toNat, ∀ x < 8 * (byteWidth 8).toNat,
      let s : Int := r - (fd₀.fontHeight - fd₀.fontBaseline - (-1) - 6)
      ((glyphRow (compiledSource source) 33 r).getD (x / 8) 0).testBit (x % 8) =
        (decide (0 ≤ s ∧ s < 6 ∧ 0 ≤ x ∧ x - 0 < 8 * (byteWidth 8).toNat) &&
          ([0x3C, 0x42, 0x42, 0x7E, 0x42, 0x42].getD s.toNat 0).testBit
            (8 * (byteWidth 8).toNat - 1 - (x - 0))) :=
  let ⟨source, entry, generated, unindexed⟩ : ∃ source entry,
      generateFont "A" (["FONTBOUNDINGBOX 8 8 0 -1"] ++ [spaceBlock, letterA].flatten ++
        "ENDFONT" :: []) = .ok (source, entry) ∧ source.charIndex = none :=
    ⟨_, _, rfl, by decide⟩
  have index : ∀ charIndex, source.charIndex = some charIndex → ∀ e ∈ charIndex, e < 2 ^ 16 :=
    fun charIndex given => by rw [unindexed] at given; cases given
  ⟨_, source, entry, rfl, generated, index, @generateFont_pixels "A" "FONTBOUNDINGBOX 8 8 0 -1"
    "ENDFONT" ["FONTBOUNDINGBOX 8 8 0 -1"] [] [spaceBlock, letterA] _ source entry
    ⟨[], [], rfl, by simp, by decide, by simp⟩ rfl (by decide)
    (by simp [spaceBlock_isCharBlock, letterA_isCharBlock]) (by decide) (by decide) generated index
    letterA ["3C", "42", "42", "7E", "42", "42"] ["ENDCHAR"] _ 8 (-1) 0 33 []
    [0x3C, 0x42, 0x42, 0x7E, 0x42, 0x42] (by simp) rfl (by decide) rfl (by decide) rfl (by decide)
    (by decide) rfl (by decide)⟩

end GmosFontGen.Display
