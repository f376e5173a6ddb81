import GmosFontGen.ParseFont

/-! The files `parseFontBDF` accepts. A file parses exactly when it has a
`FONTBOUNDINGBOX` line, then a section of glyph blocks and lines that neither start a
glyph nor end the font, then an `ENDFONT` line, and the bounding box and every block
parse; the definition is the box's with the blocks' changes made in file order, and no
line after `ENDFONT` is read. Any other file raises, and the script's top level ends the
run. -/
namespace GmosFontGen.Grammar
open Python ParseChar ParseFont

/-- The lines the glyph loop reads before `ENDFONT`, with the glyph blocks cut out of
them: lines that neither start a glyph nor end the font, and whole glyph blocks. -/
inductive CharSection : List String → List (List String) → Prop where
  | nil : CharSection [] []
  | quiet {line : String} {body : List String} {blocks : List (List String)}
      (start : startswith line "STARTCHAR" = false) (ends : startswith line "ENDFONT" = false)
      (rest : CharSection body blocks) : CharSection (line :: body) blocks
  | block {block body : List String} {blocks : List (List String)}
      (cut : IsCharBlock block) (rest : CharSection body blocks) :
      CharSection (block ++ body) (block :: blocks)

/-- The glyph loop over a section makes the changes of its blocks in order. -/
theorem parseFontChars_section (rest : List String) {body : List String}
    {blocks : List (List String)} (shaped : CharSection body blocks) :
    ∀ fd : FontDef, parseFontChars fd none (body ++ rest) =
      blocks.foldlM parseFontCharBDF fd >>= fun fd => parseFontChars fd none rest := by
  induction shaped with
  | nil => intro fd; rfl
  | quiet start ends _ ih =>
    intro fd
    simp only [List.cons_append, parseFontChars, start, ends, Bool.false_eq_true, ite_false]
    exact ih fd
  | block cut _ ih =>
    intro fd
    rw [List.append_assoc, parseFontChars_block _ cut, List.foldlM_cons, bind_assoc]
    congr 1
    funext fd
    exact ih fd

/-- A block being collected ends at the next `ENDCHAR` line; without one the loop runs
out of lines. -/
theorem parseFontChars_collected {fd fd' : FontDef} :
    ∀ {lines charLines : List String}, parseFontChars fd (some charLines) lines = .ok fd' →
      ∃ inner last rest, lines = inner ++ last :: rest ∧
        (∀ line ∈ inner, startswith line "ENDCHAR" = false) ∧
        startswith last "ENDCHAR" = true ∧
        (parseFontCharBDF fd (charLines ++ inner ++ [last]) >>= fun fd =>
          parseFontChars fd none rest) = .ok fd'
  | [], _, ran => by cases ran
  | line :: lines, charLines, ran => by
    cases ends : startswith line "ENDCHAR"
    case true =>
      simp only [parseFontChars, ends, ite_true] at ran
      exact ⟨[], line, lines, rfl, nofun, ends, by simpa using ran⟩
    case false =>
      simp only [parseFontChars, ends, Bool.false_eq_true, ite_false] at ran
      obtain ⟨inner, last, rest, rfl, quiet, closes, parsed⟩ := parseFontChars_collected ran
      refine ⟨line :: inner, last, rest, rfl, ?_, closes, by simpa using parsed⟩
      simpa [ends] using quiet

/-- **Inversion of the glyph loop.** A glyph loop that ends has read a section and an
`ENDFONT` line, and made the section's changes. -/
theorem parseFontChars_eq_ok {fd fd' : FontDef} {lines : List String}
    (ran : parseFontChars fd none lines = .ok fd') :
    ∃ body endLine tail blocks, lines = body ++ endLine :: tail ∧ CharSection body blocks ∧
      startswith endLine "ENDFONT" = true ∧ blocks.foldlM parseFontCharBDF fd = .ok fd' := by
  obtain ⟨n, size⟩ : ∃ n, lines.length = n := ⟨_, rfl⟩
  induction n using Nat.strong_induction_on generalizing lines fd with
  | _ n ih =>
    rcases lines with _ | ⟨line, lines⟩
    · cases ran
    cases endfont : startswith line "ENDFONT"
    case true =>
      simp only [parseFontChars, endfont, ite_true, Except.ok.injEq] at ran
      exact ⟨[], line, lines, [], rfl, .nil, endfont, congrArg _ ran⟩
    cases start : startswith line "STARTCHAR"
    case false =>
      simp only [parseFontChars, endfont, start, Bool.false_eq_true, ite_false] at ran
      obtain ⟨body, endLine, tail, blocks, rfl, shaped, ends, folded⟩ :=
        ih _ (by simp [← size]) ran rfl
      exact ⟨line :: body, endLine, tail, blocks, rfl, .quiet start endfont shaped, ends, folded⟩
    case true =>
      simp only [parseFontChars, endfont, start, Bool.false_eq_true, ite_false, ite_true] at ran
      obtain ⟨inner, last, rest, rfl, quiet, closes, ran⟩ := parseFontChars_collected ran
      obtain ⟨fd₁, parsed, ran⟩ := bind_eq_ok.mp ran
      obtain ⟨body, endLine, tail, blocks, rfl, shaped, ends, folded⟩ :=
        ih _ (by simp [← size]; omega) ran rfl
      have cut : IsCharBlock (line :: (inner ++ [last])) :=
        ⟨line, inner, last, rfl, start, quiet, closes⟩
      refine ⟨line :: (inner ++ [last]) ++ body, endLine, tail, _ :: blocks, by simp,
        .block cut shaped, ends, ?_⟩
      rw [List.foldlM_cons, ← List.singleton_append, ← List.append_assoc, parsed, ok_bind]
      exact folded

/-- The header loop ends at its first `FONTBOUNDINGBOX` line. -/
theorem scanFontBoundingBox_eq_ok {fontName : String} {fd : FontDef} {rest : List String} :
    ∀ {lines : List String}, scanFontBoundingBox fontName lines = .ok (fd, rest) →
      ∃ pre box, lines = pre ++ box :: rest ∧
        (∀ line ∈ pre, startswith line "FONTBOUNDINGBOX" = false) ∧
        startswith box "FONTBOUNDINGBOX" = true ∧ fontBoundingBox fontName box = .ok fd
  | [], ran => by cases ran
  | line :: lines, ran => by
    cases isBox : startswith line "FONTBOUNDINGBOX"
    case true =>
      simp only [scanFontBoundingBox, isBox, ite_true] at ran
      rcases parsed : fontBoundingBox fontName line with e | fd₀ <;>
        simp only [parsed, map_error, map_ok, Except.ok.injEq, Prod.mk.injEq] at ran
      · cases ran
      · obtain ⟨rfl, rfl⟩ := ran
        exact ⟨[], line, rfl, nofun, isBox, parsed⟩
    case false =>
      simp only [scanFontBoundingBox, isBox, Bool.false_eq_true, ite_false] at ran
      obtain ⟨pre, box, rfl, before, found, parsed⟩ := scanFontBoundingBox_eq_ok ran
      refine ⟨line :: pre, box, rfl, ?_, found, parsed⟩
      simpa [isBox] using before

/-- A file made of lines without `FONTBOUNDINGBOX`, a `FONTBOUNDINGBOX` line, a section
and an `ENDFONT` line parses as the box's cell with the section's blocks applied in order. -/
theorem parseFontBDF_section {fontName box endLine : String} {pre body tail : List String}
    {blocks : List (List String)} (before : ∀ line ∈ pre, startswith line "FONTBOUNDINGBOX" = false)
    (isBox : startswith box "FONTBOUNDINGBOX" = true) (shaped : CharSection body blocks)
    (ends : startswith endLine "ENDFONT" = true) :
    parseFontBDF fontName (pre ++ box :: (body ++ endLine :: tail)) =
      fontBoundingBox fontName box >>= fun fd => blocks.foldlM parseFontCharBDF fd := by
  rw [parseFontBDF, scanFontBoundingBox_eq _ before isBox]
  rcases fontBoundingBox fontName box with _ | fd₀
  · rfl
  rw [map_ok, ok_bind, ok_bind]
  dsimp only
  rw [parseFontChars_section _ shaped]
  rcases blocks.foldlM parseFontCharBDF fd₀ with _ | fd <;> simp [parseFontChars, ends]

/-- **Glyph blocks in any order.** Two files that differ only in their sections, whose
glyph blocks are the same blocks of pairwise distinct declared codepoints in any order
and with any other lines among them, either both fail or parse to the same definition. -/
theorem parseFontBDF_perm {fontName box endLine : String} {pre body body' tail : List String}
    {blocks blocks' : List (List String)}
    (before : ∀ line ∈ pre, startswith line "FONTBOUNDINGBOX" = false)
    (isBox : startswith box "FONTBOUNDINGBOX" = true) (shaped : CharSection body blocks)
    (shaped' : CharSection body' blocks') (ends : startswith endLine "ENDFONT" = true)
    (perm : blocks.Perm blocks') (distinct : (blocks.map (declaredCodePoint (-1))).Nodup) :
    (parseFontBDF fontName (pre ++ box :: (body ++ endLine :: tail))).toOption =
      (parseFontBDF fontName (pre ++ box :: (body' ++ endLine :: tail))).toOption := by
  rw [parseFontBDF_section before isBox shaped ends, parseFontBDF_section before isBox shaped' ends]
  rcases fontBoundingBox fontName box with _ | fd
  · rfl
  · exact foldlM_parseFontCharBDF_perm fd perm distinct

/-- **What the parser accepts.** `parseFontBDF` returns a definition exactly for the
files made of lines without `FONTBOUNDINGBOX`, a `FONTBOUNDINGBOX` line, a section of glyph
blocks and lines that neither start a glyph nor end the font, and an `ENDFONT` line, whose
bounding box and blocks parse; the definition is the box's with the blocks' changes made
in file order, and the lines after `ENDFONT` are never read. -/
theorem parseFontBDF_eq_ok {fontName : String} {fileLines : List String} {fd : FontDef} :
    parseFontBDF fontName fileLines = .ok fd ↔
      ∃ pre box body endLine tail blocks, fileLines = pre ++ box :: (body ++ endLine :: tail) ∧
        (∀ line ∈ pre, startswith line "FONTBOUNDINGBOX" = false) ∧
        startswith box "FONTBOUNDINGBOX" = true ∧ CharSection body blocks ∧
        startswith endLine "ENDFONT" = true ∧
        (fontBoundingBox fontName box >>= fun fd => blocks.foldlM parseFontCharBDF fd) =
          .ok fd := by
  constructor
  · intro parsed
    obtain ⟨⟨fd₀, rest⟩, scanned, ran⟩ := bind_eq_ok.mp parsed
    obtain ⟨pre, box, rfl, before, isBox, boxed⟩ := scanFontBoundingBox_eq_ok scanned
    obtain ⟨body, endLine, tail, blocks, rfl, shaped, ends, folded⟩ := parseFontChars_eq_ok ran
    exact ⟨pre, box, body, endLine, tail, blocks, rfl, before, isBox, shaped, ends,
      by rw [boxed, ok_bind, folded]⟩
  · rintro ⟨pre, box, body, endLine, tail, blocks, rfl, before, isBox, shaped, ends, folded⟩
    rw [parseFontBDF_section before isBox shaped ends, folded]

/-! ## The bytes of the stored glyphs

Every byte the parser stores is one `& 0xFF` of a packed row, so it fits the `uint8_t`
data array the generated source declares. -/

/-- Every stored glyph byte fits a `uint8_t`. -/
def BytesFit (fd : FontDef) : Prop := ∀ c g, fd.charSet c = some g → ∀ b ∈ g, b < 256

theorem lt_of_mem_packRow {fontWidth : Int} {v x : Nat} (mem : x ∈ packRow fontWidth v) :
    x < 256 := by
  rw [packRow_eq] at mem
  obtain ⟨m, -, rfl⟩ := List.mem_map.mp mem
  exact Nat.mod_lt _ (by decide)

theorem charRow_packRow {fontWidth fontHeight : Int} {scan : CharScan} {i : Nat}
    {lines rest : List String} {row : List Nat}
    (ran : charRow fontWidth fontHeight scan i lines = .ok (row, rest)) :
    ∃ v, row = packRow fontWidth v := by
  unfold charRow at ran
  split_ifs at ran
  · cases ran
    exact ⟨0, rfl⟩
  rcases lines with _ | ⟨line, lines⟩
  · cases ran
  obtain ⟨sourceData, -, ran⟩ := bind_eq_ok.mp ran
  split at ran
  · simp [bind_eq_ok, pure, Except.pure] at ran
    obtain ⟨width, -, rfl, -⟩ := ran
    exact ⟨_, rfl⟩
  · simp [throw, throwThe, MonadExceptOf.throw] at ran

theorem convertRows_fit {fontWidth fontHeight : Int} {scan : CharScan} :
    ∀ {rows : List Nat} {lines rest : List String} {bytes : List Nat},
      convertRows fontWidth fontHeight scan rows lines = .ok (bytes, rest) → ∀ b ∈ bytes, b < 256
  | [], _, _, _, ran => by cases ran; simp
  | i :: rows, lines, rest, bytes, ran => by
    simp only [convertRows, bind_eq_ok] at ran
    obtain ⟨⟨row, lines'⟩, first, ⟨bytes', rest'⟩, others, ran⟩ := ran
    cases ran
    intro b mem
    rcases List.mem_append.mp mem with mem | mem
    · obtain ⟨v, rfl⟩ := charRow_packRow first
      exact lt_of_mem_packRow mem
    · exact convertRows_fit others b mem

theorem charEffect_fit {fontWidth fontHeight fontBaseline : Int} {charLines rest : List String}
    {e : CharEffect} (ran : charEffect fontWidth fontHeight fontBaseline charLines = .ok (e, rest)) :
    ∀ c bytes w, e.stored = some (c, bytes, w) → ∀ b ∈ bytes, b < 256 := by
  simp only [charEffect, bind_eq_ok] at ran
  obtain ⟨header, -, ran⟩ := ran
  rcases header with ⟨scan, rest'⟩ | ⟨scan, rest'⟩
  · cases ran
    intro c bytes w stored
    cases stored
  · simp only [bind_eq_ok] at ran
    obtain ⟨⟨bytes, rest''⟩, converted, ran⟩ := ran
    cases ran
    intro c bytes' w stored
    split_ifs at stored
    cases stored
    exact convertRows_fit converted

/-- **Step lemma.** A glyph's change keeps every stored byte within a `uint8_t`. -/
theorem apply_bytesFit {e : CharEffect} {fd : FontDef}
    (fit : ∀ c bytes w, e.stored = some (c, bytes, w) → ∀ b ∈ bytes, b < 256)
    (fits : BytesFit fd) : BytesFit (e.apply fd) := by
  unfold CharEffect.apply
  intro c g found
  rcases stored : e.stored with _ | ⟨codePoint, bytes, w⟩ <;>
    simp only [stored, FontDef.setChar_charSet, FontDef.clearMonospaced_charSet] at found
  · exact fits c g found
  by_cases same : c = codePoint
  · rw [same, setItem_self, Option.some.injEq] at found
    exact found ▸ fit _ _ _ stored
  · exact fits c g (by rwa [setItem_of_ne _ same] at found)

/-- **Run lemma.** -/
theorem foldlM_parseFontCharBDF_bytesFit :
    ∀ {blocks : List (List String)} {fd fd' : FontDef}, BytesFit fd →
      blocks.foldlM parseFontCharBDF fd = .ok fd' → BytesFit fd'
  | [], _, _, fits, ran => by cases ran; exact fits
  | block :: blocks, fd, fd', fits, ran => by
    rw [List.foldlM_cons] at ran
    obtain ⟨fd₁, parsed, ran⟩ := bind_eq_ok.mp ran
    rw [parseFontCharBDF_eq] at parsed
    rcases effect : charEffect fd.fontWidth fd.fontHeight fd.fontBaseline block with
      _ | ⟨e, rest⟩ <;> simp only [effect, map_error, map_ok] at parsed
    · cases parsed
    cases parsed
    exact foldlM_parseFontCharBDF_bytesFit (apply_bytesFit (charEffect_fit effect) fits) ran

/-- Every glyph byte of a parsed definition fits a `uint8_t`. -/
theorem parseFontBDF_bytesFit {fontName : String} {fileLines : List String} {fd : FontDef}
    (ran : parseFontBDF fontName fileLines = .ok fd) : BytesFit fd := by
  obtain ⟨⟨fd₀, rest⟩, scanned, ran⟩ := bind_eq_ok.mp ran
  obtain ⟨pre, box, -, -, -, boxed⟩ := scanFontBoundingBox_eq_ok scanned
  obtain ⟨-, -, -, blocks, -, -, -, folded⟩ := parseFontChars_eq_ok ran
  refine foldlM_parseFontCharBDF_bytesFit ?_ folded
  simp only [fontBoundingBox, bind_eq_ok] at boxed
  obtain ⟨bounds, -, width, -, height, -, offset, -, boxed⟩ := boxed
  cases boxed
  intro c g found
  cases found

end GmosFontGen.Grammar
