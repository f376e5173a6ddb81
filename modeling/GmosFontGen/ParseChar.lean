import GmosFontGen.Python

/-! `parseFontCharBDF`: one glyph block of a BDF file into the font definition. The
declaration loop reads `ENCODING`, `BBX` and `DWIDTH` lines up to `BITMAP`; the conversion
loop then turns each cell row into `ceil(fontWidth / 8)` bytes, blank for the padding rows
and otherwise from the next hexadecimal bitmap line, shifted into place and bit-reversed.
The line iterator is explicit: `parseFontCharLines` also returns the lines not read. -/
namespace GmosFontGen.ParseChar
open Python

/-- The `fontDef` dictionary of the script. -/
structure FontDef where
  fontName : String
  /-- `charSet`: codepoint to packed rows, `ceil(fontWidth / 8)` bytes a row. -/
  charSet : Int → Option (List Nat)
  /-- `charWidths`: codepoint to advance width. -/
  charWidths : Int → Option Int
  fontWidth : Int
  fontHeight : Int
  fontBaseline : Int
  fontMonospaced : Bool
  /-- Absent until `formatStandardAsciiCode` assigns it. -/
  charSetName : Option String

/-- The two assignments that end each pass of the conversion loop. -/
def FontDef.setChar (fd : FontDef) (codePoint : Int) (charBytes : List Nat) (charWidth : Int) :
    FontDef :=
  { fd with charSet := setItem fd.charSet codePoint charBytes,
            charWidths := setItem fd.charWidths codePoint charWidth }

@[simp] theorem FontDef.setChar_fontName (fd : FontDef) (c : Int) (b : List Nat) (w : Int) :
    (fd.setChar c b w).fontName = fd.fontName := rfl
@[simp] theorem FontDef.setChar_fontWidth (fd : FontDef) (c : Int) (b : List Nat) (w : Int) :
    (fd.setChar c b w).fontWidth = fd.fontWidth := rfl
@[simp] theorem FontDef.setChar_fontHeight (fd : FontDef) (c : Int) (b : List Nat) (w : Int) :
    (fd.setChar c b w).fontHeight = fd.fontHeight := rfl
@[simp] theorem FontDef.setChar_fontBaseline (fd : FontDef) (c : Int) (b : List Nat) (w : Int) :
    (fd.setChar c b w).fontBaseline = fd.fontBaseline := rfl
@[simp] theorem FontDef.setChar_fontMonospaced (fd : FontDef) (c : Int) (b : List Nat) (w : Int) :
    (fd.setChar c b w).fontMonospaced = fd.fontMonospaced := rfl
@[simp] theorem FontDef.setChar_charSetName (fd : FontDef) (c : Int) (b : List Nat) (w : Int) :
    (fd.setChar c b w).charSetName = fd.charSetName := rfl
@[simp] theorem FontDef.setChar_charSet (fd : FontDef) (c : Int) (b : List Nat) (w : Int) :
    (fd.setChar c b w).charSet = setItem fd.charSet c b := rfl
@[simp] theorem FontDef.setChar_charWidths (fd : FontDef) (c : Int) (b : List Nat) (w : Int) :
    (fd.setChar c b w).charWidths = setItem fd.charWidths c w := rfl

@[simp] theorem FontDef.setChar_setChar (fd : FontDef) (c : Int) (b b' : List Nat) (w w' : Int) :
    (fd.setChar c b w).setChar c b' w' = fd.setChar c b' w' := by
  simp [FontDef.setChar]

/-- The locals of `parseFontCharBDF` between declaration lines. `clearsMonospaced`
records the loop's write `fontDef["fontMonospaced"] = False`, made on the definition when
the loop ends: nothing reads the entry before that, and an exception ends the run. -/
structure CharScan where
  codePoint : Int
  padUpper : Int
  padLower : Int
  padLeft : Int
  padRight : Int
  charWidth : Int
  /-- `bounds`, unbound until a `BBX` line assigns it. -/
  bounds : Option (List Int)
  clearsMonospaced : Bool
  deriving DecidableEq, Repr

/-- "Specify no padding data by default." -/
def CharScan.init (fontWidth : Int) : CharScan :=
  { codePoint := -1, padUpper := 0, padLower := 0, padLeft := 0, padRight := 0,
    charWidth := fontWidth, bounds := none, clearsMonospaced := false }

/-- `fontDef["fontMonospaced"] = False` when `clears`. -/
def FontDef.clearMonospaced (fd : FontDef) (clears : Bool) : FontDef :=
  if clears then { fd with fontMonospaced := false } else fd

@[simp] theorem FontDef.clearMonospaced_false (fd : FontDef) : fd.clearMonospaced false = fd := rfl

@[simp] theorem FontDef.clearMonospaced_fontMonospaced (fd : FontDef) (clears : Bool) :
    (fd.clearMonospaced clears).fontMonospaced = (fd.fontMonospaced && !clears) := by
  cases clears <;> simp [FontDef.clearMonospaced]

@[simp] theorem FontDef.clearMonospaced_charSet (fd : FontDef) (clears : Bool) :
    (fd.clearMonospaced clears).charSet = fd.charSet := by cases clears <;> rfl
@[simp] theorem FontDef.clearMonospaced_charWidths (fd : FontDef) (clears : Bool) :
    (fd.clearMonospaced clears).charWidths = fd.charWidths := by cases clears <;> rfl
@[simp] theorem FontDef.clearMonospaced_fontWidth (fd : FontDef) (clears : Bool) :
    (fd.clearMonospaced clears).fontWidth = fd.fontWidth := by cases clears <;> rfl
@[simp] theorem FontDef.clearMonospaced_fontHeight (fd : FontDef) (clears : Bool) :
    (fd.clearMonospaced clears).fontHeight = fd.fontHeight := by cases clears <;> rfl
@[simp] theorem FontDef.clearMonospaced_fontBaseline (fd : FontDef) (clears : Bool) :
    (fd.clearMonospaced clears).fontBaseline = fd.fontBaseline := by cases clears <;> rfl
@[simp] theorem FontDef.clearMonospaced_fontName (fd : FontDef) (clears : Bool) :
    (fd.clearMonospaced clears).fontName = fd.fontName := by cases clears <;> rfl
@[simp] theorem FontDef.clearMonospaced_charSetName (fd : FontDef) (clears : Bool) :
    (fd.clearMonospaced clears).charSetName = fd.charSetName := by cases clears <;> rfl

/-- Clearing the flag touches no other entry. -/
theorem FontDef.clearMonospaced_eq (fd : FontDef) (clears : Bool) :
    fd.clearMonospaced clears = { fd with fontMonospaced := fd.fontMonospaced && !clears } := by
  cases clears <;> simp [FontDef.clearMonospaced]

/-- What one pass of the declaration loop does. -/
inductive HeaderStep where
  | next (scan : CharScan)
  /-- The `return` on a negative x offset. -/
  | skip
  /-- The `break` at `BITMAP`. -/
  | bitmap
  deriving DecidableEq, Repr

/-- How the declaration loop ends, with the lines after the last one it read. -/
inductive CharHeader where
  | skipped (scan : CharScan) (rest : List String)
  | bitmap (scan : CharScan) (rest : List String)
  deriving DecidableEq, Repr

/-- One pass of the declaration loop of `parseFontCharBDF` on `line`. -/
def headerLine (fontWidth fontHeight fontBaseline : Int) (scan : CharScan) (line : String) :
    Except PyError HeaderStep :=
  if startswith line "BITMAP" then .ok .bitmap
  else if startswith line "ENCODING" then do
    let codePoint ← pyInt 10 (← pyIndex (split line) 1)
    pure (.next { scan with codePoint })
  else if startswith line "BBX" then do
    let bounds ← (split line).tail.mapM (pyInt 10)
    let padLeft ← pyIndex bounds 2
    if padLeft < 0 then pure .skip
    else do
      let padRight := fontWidth - padLeft - (← pyIndex bounds 0)
      let padLower := fontBaseline + (← pyIndex bounds 3)
      let padUpper := fontHeight - padLower - (← pyIndex bounds 1)
      pure (.next { scan with bounds := some bounds, padLeft, padRight, padLower, padUpper })
  else if startswith line "DWIDTH" then do
    let charWidth ← pyIndex ((← (split line).tail.mapM (pyInt 10))) 0
    pure (.next { scan with charWidth,
                            clearsMonospaced := scan.clearsMonospaced || charWidth ≠ fontWidth })
  else pure (.next scan)

/-- The declaration loop: `line = next(lineIter)` until `BITMAP` or a skip. -/
def scanCharHeader (fontWidth fontHeight fontBaseline : Int) :
    CharScan → List String → Except PyError CharHeader
  | _, [] => .error .stopIteration
  | scan, line :: rest => do
    match ← headerLine fontWidth fontHeight fontBaseline scan line with
    | .next scan => scanCharHeader fontWidth fontHeight fontBaseline scan rest
    | .skip => pure (.skipped scan rest)
    | .bitmap => pure (.bitmap scan rest)

/-- The shift that puts a bitmap line of a glyph `width` pixels wide at the top of 32
bits: the line holds `ceil(width / 8)` bytes. -/
def alignSource (width sourceData : Int) : Int :=
  if width ≤ 8 then sourceData * 2 ^ 24
  else if width ≤ 16 then sourceData * 2 ^ 16
  else if width ≤ 24 then sourceData * 2 ^ 8
  else sourceData

/-- The loop `for j in range(32)`, `n` passes left: `charData` takes bit 0 of
`sourceData` on the right, and `sourceData` shifts right. `& 1` is `% 2` and `>> 1` is
`/ 2` on Python's integers. -/
def bitReverse : Nat → Int → Nat → Nat
  | 0, _, charData => charData
  | n + 1, sourceData, charData =>
    bitReverse n (sourceData / 2) (2 * charData + if sourceData % 2 ≠ 0 then 1 else 0)

/-- The bytes appended for one cell row, least significant first: one, and one more for
each of `fontWidth > 8`, `> 16`, `> 24`. A padding row is the same appends of `0`. -/
def packRow (fontWidth : Int) (charData : Nat) : List Nat :=
  [charData % 256] ++ (if fontWidth > 8 then [charData / 2 ^ 8 % 256] else []) ++
    (if fontWidth > 16 then [charData / 2 ^ 16 % 256] else []) ++
    (if fontWidth > 24 then [charData / 2 ^ 24 % 256] else [])

/-- One pass of the conversion loop for cell row `i`: a padding row, or the next bitmap
line shifted by the glyph width class, then right by `padLeft`, then bit-reversed. -/
def charRow (fontWidth fontHeight : Int) (scan : CharScan) (i : Nat) (lines : List String) :
    Except PyError (List Nat × List String) :=
  if (i : Int) < scan.padUpper ∨ (i : Int) ≥ fontHeight - scan.padLower then
    .ok (packRow fontWidth 0, lines)
  else match lines with
    | [] => .error .stopIteration
    | line :: rest => do
      let sourceData ← pyInt 16 line
      let bounds ← match scan.bounds with
        | some bounds => pure bounds
        | none => throw (.unboundLocal "bounds")
      let shifted := alignSource (← pyIndex bounds 0) sourceData / 2 ^ scan.padLeft.toNat
      .ok (packRow fontWidth (bitReverse 32 shifted 0), rest)

/-- The conversion loop over the cell rows `rows`, each pass ending with
`charSet[codePoint] = charBytes` and `charWidths[codePoint] = charWidth`. -/
def charRows (fontWidth fontHeight : Int) (scan : CharScan) :
    FontDef → List Nat → List Nat → List String → Except PyError (FontDef × List String)
  | fd, _, [], lines => .ok (fd, lines)
  | fd, charBytes, i :: rows, lines => do
    let (row, lines) ← charRow fontWidth fontHeight scan i lines
    charRows fontWidth fontHeight scan (fd.setChar scan.codePoint (charBytes ++ row) scan.charWidth)
      (charBytes ++ row) rows lines

/-- `parseFontCharBDF` with its line iterator explicit: the definition it leaves, and the
lines of the block it did not read. -/
def parseFontCharLines (fd : FontDef) (charLines : List String) :
    Except PyError (FontDef × List String) := do
  match ← scanCharHeader fd.fontWidth fd.fontHeight fd.fontBaseline
      (CharScan.init fd.fontWidth) charLines with
  | .skipped scan rest => pure (fd.clearMonospaced scan.clearsMonospaced, rest)
  | .bitmap scan rest =>
    charRows fd.fontWidth fd.fontHeight scan (fd.clearMonospaced scan.clearsMonospaced) []
      (List.range fd.fontHeight.toNat) rest

/-- `parseFontCharBDF(fontDef, charLines)`. -/
def parseFontCharBDF (fd : FontDef) (charLines : List String) : Except PyError FontDef :=
  Prod.fst <$> parseFontCharLines fd charLines

/-- A block that declares a narrower advance width before a `BBX` line with a negative x
offset is skipped, but the monospaced flag was cleared on the way. -/
theorem skippedBlock_clearsMonospaced (fontName : String) (charSet : Int → Option (List Nat))
    (charWidths : Int → Option Int) (fontHeight fontBaseline : Int) (charSetName : Option String) :
    parseFontCharBDF ⟨fontName, charSet, charWidths, 8, fontHeight, fontBaseline, true, charSetName⟩
      ["STARTCHAR A", "ENCODING 65", "DWIDTH 5 0", "BBX 5 8 -1 0", "BITMAP", "ENDCHAR"] =
    .ok ⟨fontName, charSet, charWidths, 8, fontHeight, fontBaseline, false, charSetName⟩ := by
  rfl

/-! ## What a glyph block does to a definition -/

/-- The conversion loop without its assignments: the bytes of the rows, and the lines
left. -/
def convertRows (fontWidth fontHeight : Int) (scan : CharScan) :
    List Nat → List String → Except PyError (List Nat × List String)
  | [], lines => .ok ([], lines)
  | i :: rows, lines => do
    let (row, lines) ← charRow fontWidth fontHeight scan i lines
    let (bytes, lines) ← convertRows fontWidth fontHeight scan rows lines
    pure (row ++ bytes, lines)

/-- The change one glyph block makes to a definition: whether it clears the monospaced
flag, and the entry it stores (codepoint, packed rows, advance width). -/
structure CharEffect where
  clears : Bool
  stored : Option (Int × List Nat × Int)
  deriving DecidableEq, Repr

/-- Making the change. -/
def CharEffect.apply (e : CharEffect) (fd : FontDef) : FontDef :=
  match e.stored with
  | some (codePoint, charBytes, charWidth) =>
    (fd.clearMonospaced e.clears).setChar codePoint charBytes charWidth
  | none => fd.clearMonospaced e.clears

/-- The change a glyph block makes to a definition of cell `fontWidth × fontHeight` and
baseline `fontBaseline`, with the lines it leaves unread. It reads nothing else of the
definition. -/
def charEffect (fontWidth fontHeight fontBaseline : Int) (charLines : List String) :
    Except PyError (CharEffect × List String) := do
  match ← scanCharHeader fontWidth fontHeight fontBaseline (CharScan.init fontWidth) charLines with
  | .skipped scan rest => pure (⟨scan.clearsMonospaced, none⟩, rest)
  | .bitmap scan rest => do
    let (charBytes, rest) ←
      convertRows fontWidth fontHeight scan (List.range fontHeight.toNat) rest
    pure (⟨scan.clearsMonospaced,
      if 0 < fontHeight then some (scan.codePoint, charBytes, scan.charWidth) else none⟩, rest)

@[simp] theorem CharEffect.apply_fontName (e : CharEffect) (fd : FontDef) :
    (e.apply fd).fontName = fd.fontName := by
  unfold CharEffect.apply; split <;> simp
@[simp] theorem CharEffect.apply_fontWidth (e : CharEffect) (fd : FontDef) :
    (e.apply fd).fontWidth = fd.fontWidth := by
  unfold CharEffect.apply; split <;> simp
@[simp] theorem CharEffect.apply_fontHeight (e : CharEffect) (fd : FontDef) :
    (e.apply fd).fontHeight = fd.fontHeight := by
  unfold CharEffect.apply; split <;> simp
@[simp] theorem CharEffect.apply_fontBaseline (e : CharEffect) (fd : FontDef) :
    (e.apply fd).fontBaseline = fd.fontBaseline := by
  unfold CharEffect.apply; split <;> simp
@[simp] theorem CharEffect.apply_charSetName (e : CharEffect) (fd : FontDef) :
    (e.apply fd).charSetName = fd.charSetName := by
  unfold CharEffect.apply; split <;> simp

/-- The conversion loop's assignments leave the last row's `charBytes`, that is all of
them, unless there were no rows. -/
theorem charRows_eq (fontWidth fontHeight : Int) (scan : CharScan) (rows : List Nat) :
    ∀ (fd : FontDef) (charBytes : List Nat) (lines : List String),
    charRows fontWidth fontHeight scan fd charBytes rows lines =
      (fun r => (if rows = [] then fd else
        fd.setChar scan.codePoint (charBytes ++ r.1) scan.charWidth, r.2)) <$>
        convertRows fontWidth fontHeight scan rows lines := by
  induction rows with
  | nil => intro fd charBytes lines; rfl
  | cons i rows ih =>
    intro fd charBytes lines
    simp only [charRows, convertRows, ih, map_bind]
    rcases charRow fontWidth fontHeight scan i lines with e | ⟨row, lines⟩
    · rfl
    · rcases rows with _ | ⟨j, rows⟩
      · simp [convertRows]
      · rcases convertRows fontWidth fontHeight scan (j :: rows) lines with e | q <;> simp

/-- **Effect form.** `parseFontCharBDF` makes the change `charEffect` computes from the
cell, the baseline and the block alone. -/
theorem parseFontCharLines_eq (fd : FontDef) (charLines : List String) :
    parseFontCharLines fd charLines = (fun r => (r.1.apply fd, r.2)) <$>
      charEffect fd.fontWidth fd.fontHeight fd.fontBaseline charLines := by
  simp only [parseFontCharLines, charEffect, map_bind]
  rcases scanCharHeader fd.fontWidth fd.fontHeight fd.fontBaseline (CharScan.init fd.fontWidth)
    charLines with e | ⟨scan, rest⟩ | ⟨scan, rest⟩
  · rfl
  · rfl
  · simp only [ok_bind, charRows_eq, List.range_eq_nil, Int.toNat_eq_zero, bind_pure_comp]
    rcases convertRows fd.fontWidth fd.fontHeight scan (List.range fd.fontHeight.toNat) rest
      with e | q
    · rfl
    · by_cases high : 0 < fd.fontHeight
      · simp [high, Int.not_le.mpr high, CharEffect.apply]
      · simp [high, Int.not_lt.mp high, CharEffect.apply]

theorem parseFontCharBDF_eq (fd : FontDef) (charLines : List String) :
    parseFontCharBDF fd charLines = (fun r => r.1.apply fd) <$>
      charEffect fd.fontWidth fd.fontHeight fd.fontBaseline charLines := by
  simp [parseFontCharBDF, parseFontCharLines_eq]


/-! ## The declaration loop -/

/-- The scan state a finished declaration loop leaves. -/
def CharHeader.scan : CharHeader → CharScan
  | .skipped scan _ => scan
  | .bitmap scan _ => scan

/-- Every way a declaration line can continue the loop. -/
theorem headerLine_next {fontWidth fontHeight fontBaseline : Int} {scan scan' : CharScan}
    {line : String} (next : headerLine fontWidth fontHeight fontBaseline scan line = .ok (.next scan')) :
    startswith line "BITMAP" = false ∧
      ((startswith line "ENCODING" = true ∧ ∃ codePoint,
          (pyIndex (split line) 1 >>= pyInt 10) = .ok codePoint ∧ scan' = { scan with codePoint }) ∨
       (startswith line "ENCODING" = false ∧ startswith line "BBX" = true ∧
          ∃ w h xo yo more, 0 ≤ xo ∧ scan' =
            { scan with bounds := some (w :: h :: xo :: yo :: more), padLeft := xo,
                        padRight := fontWidth - xo - w, padLower := fontBaseline + yo,
                        padUpper := fontHeight - (fontBaseline + yo) - h }) ∨
       (startswith line "ENCODING" = false ∧ startswith line "BBX" = false ∧
          startswith line "DWIDTH" = true ∧ ∃ charWidth, scan' =
            { scan with charWidth,
                        clearsMonospaced := scan.clearsMonospaced || charWidth ≠ fontWidth }) ∨
       (startswith line "ENCODING" = false ∧ startswith line "BBX" = false ∧
          startswith line "DWIDTH" = false ∧ scan' = scan)) := by
  unfold headerLine at next
  cases bitmap : startswith line "BITMAP"
  case true => simp [bitmap] at next
  simp only [bitmap, Bool.false_eq_true, ite_false] at next
  refine ⟨rfl, ?_⟩
  cases encoding : startswith line "ENCODING"
  case true =>
    simp only [encoding, ite_true] at next
    rcases found : pyIndex (split line) 1 with e | word <;> simp only [found, error_bind, ok_bind] at next
    · cases next
    rcases parsed : pyInt 10 word with e | codePoint <;>
      simp only [parsed, error_bind, ok_bind] at next
    · cases next
    simp only [pure, Except.pure, Except.ok.injEq, HeaderStep.next.injEq] at next
    exact .inl ⟨rfl, codePoint, by simp [found, parsed], next.symm⟩
  simp only [encoding, Bool.false_eq_true, ite_false] at next
  cases bbx : startswith line "BBX"
  case true =>
    simp only [bbx, ite_true] at next
    refine .inr (.inl ⟨rfl, rfl, ?_⟩)
    rcases parsed : (split line).tail.mapM (pyInt 10) with e | bounds <;>
      simp only [parsed, error_bind, ok_bind] at next
    · cases next
    rcases bounds with _ | ⟨w, _ | ⟨h, _ | ⟨xo, _ | ⟨yo, more⟩⟩⟩⟩ <;>
      simp only [pyIndex, Int.reduceLE, ite_true, Int.reduceToNat, List.getElem?_cons_succ,
        List.getElem?_cons_zero, List.getElem?_nil, ok_bind, error_bind, reduceCtorEq] at next <;>
      by_cases negative : xo < 0 <;>
      simp only [negative, ite_true, ite_false, pure, Except.pure, Except.ok.injEq, reduceCtorEq,
        HeaderStep.next.injEq, error_bind, ok_bind] at next
    exact ⟨w, h, xo, yo, more, Int.not_lt.mp negative, next.symm⟩
  simp only [bbx, Bool.false_eq_true, ite_false] at next
  cases dwidth : startswith line "DWIDTH"
  case true =>
    simp only [dwidth, ite_true] at next
    rcases parsed : (split line).tail.mapM (pyInt 10) with e | steps <;>
      simp only [parsed, error_bind, ok_bind] at next
    · cases next
    rcases found : pyIndex steps 0 with e | charWidth <;> simp only [found, error_bind, ok_bind] at next
    · cases next
    simp only [pure, Except.pure, Except.ok.injEq, HeaderStep.next.injEq] at next
    exact .inr (.inr (.inl ⟨rfl, rfl, rfl, charWidth, next.symm⟩))
  simp only [dwidth, Bool.false_eq_true, ite_false, pure, Except.pure, Except.ok.injEq,
    HeaderStep.next.injEq] at next
  exact .inr (.inr (.inr ⟨rfl, rfl, rfl, next.symm⟩))

/-- **Run lemma.** What every declaration line keeps holds when the loop ends. -/
theorem scanCharHeader_preserves {P : CharScan → Prop} {fontWidth fontHeight fontBaseline : Int}
    (step : ∀ scan line scan', P scan →
      headerLine fontWidth fontHeight fontBaseline scan line = .ok (.next scan') → P scan') :
    ∀ {lines scan header}, P scan →
      scanCharHeader fontWidth fontHeight fontBaseline scan lines = .ok header → P header.scan := by
  intro lines
  induction lines with
  | nil => intro scan header _ ran; cases ran
  | cons line rest ih =>
    intro scan header holds ran
    simp only [scanCharHeader] at ran
    rcases next : headerLine fontWidth fontHeight fontBaseline scan line with e | (scan' | _ | _) <;>
      simp only [next, error_bind, ok_bind] at ran
    · cases ran
    · exact ih (step scan line scan' holds next) ran
    · cases ran; exact holds
    · cases ran; exact holds

/-- Only a `BITMAP` line ends the loop with a `break`. -/
theorem headerLine_bitmap {fontWidth fontHeight fontBaseline : Int} {scan : CharScan} {line : String}
    (ended : headerLine fontWidth fontHeight fontBaseline scan line = .ok .bitmap) :
    startswith line "BITMAP" = true := by
  unfold headerLine at ended
  cases bitmap : startswith line "BITMAP"
  case true => rfl
  simp only [bitmap, Bool.false_eq_true, ite_false] at ended
  split_ifs at ended <;>
    simp only [bind_eq_ok, pure, Except.pure, Except.ok.injEq, reduceCtorEq, and_false,
      exists_false] at ended
  obtain ⟨bounds, -, padLeft, -, ended⟩ := ended
  split_ifs at ended <;> simp [bind_eq_ok] at ended

/-- The codepoint a glyph block declares: the value of its last `ENCODING` line before
`BITMAP`, `codePoint` when there is none. -/
def declaredCodePoint (codePoint : Int) : List String → Int
  | [] => codePoint
  | line :: rest =>
    if startswith line "BITMAP" then codePoint
    else if startswith line "ENCODING" then
      match pyIndex (split line) 1 >>= pyInt 10 with
      | .ok c => declaredCodePoint c rest
      | .error _ => codePoint
    else declaredCodePoint codePoint rest

/-- A block that reaches `BITMAP` stores under the codepoint it declares. -/
theorem scanCharHeader_codePoint {fontWidth fontHeight fontBaseline : Int} {rest : List String} :
    ∀ {lines : List String} {scan scan' : CharScan},
      scanCharHeader fontWidth fontHeight fontBaseline scan lines = .ok (.bitmap scan' rest) →
      scan'.codePoint = declaredCodePoint scan.codePoint lines := by
  intro lines
  induction lines with
  | nil => intro scan scan' ran; cases ran
  | cons line lines ih =>
    intro scan scan' ran
    simp only [scanCharHeader] at ran
    rcases next : headerLine fontWidth fontHeight fontBaseline scan line with e | (scan'' | _ | _) <;>
      simp only [next, error_bind, ok_bind] at ran
    · cases ran
    · rw [ih ran]
      obtain ⟨bitmap, ⟨encoding, c, parsed, rfl⟩ | ⟨encoding, -, -, -, -, -, -, -, rfl⟩ |
        ⟨encoding, -, -, -, rfl⟩ | ⟨encoding, -, -, rfl⟩⟩ := headerLine_next next
      · simp [declaredCodePoint, bitmap, encoding, parsed]
      all_goals simp [declaredCodePoint, bitmap, encoding]
    · cases ran
    · cases ran
      simp [declaredCodePoint, headerLine_bitmap next]

/-- An advance width other than the cell's has cleared the monospaced flag. -/
def CharScan.Consistent (fontWidth : Int) (scan : CharScan) : Prop :=
  scan.charWidth ≠ fontWidth → scan.clearsMonospaced = true

/-- Where a `BBX` line has been read, the paddings are the ones it gives. -/
def CharScan.Padded (fontWidth fontHeight fontBaseline : Int) (scan : CharScan) : Prop :=
  ∀ bounds, scan.bounds = some bounds → ∃ w h xo yo more, bounds = w :: h :: xo :: yo :: more ∧
    0 ≤ xo ∧ scan.padLeft = xo ∧ scan.padRight = fontWidth - xo - w ∧
    scan.padLower = fontBaseline + yo ∧ scan.padUpper = fontHeight - (fontBaseline + yo) - h

theorem headerLine_consistent {fontWidth fontHeight fontBaseline : Int} {scan scan' : CharScan}
    {line : String} (holds : scan.Consistent fontWidth)
    (next : headerLine fontWidth fontHeight fontBaseline scan line = .ok (.next scan')) :
    scan'.Consistent fontWidth := by
  obtain ⟨-, ⟨-, -, -, rfl⟩ | ⟨-, -, -, -, -, -, -, -, rfl⟩ | ⟨-, -, -, charWidth, rfl⟩ |
    ⟨-, -, -, rfl⟩⟩ := headerLine_next next
  · exact holds
  · exact holds
  · intro differs
    simp [differs]
  · exact holds

theorem headerLine_padded {fontWidth fontHeight fontBaseline : Int} {scan scan' : CharScan}
    {line : String} (holds : scan.Padded fontWidth fontHeight fontBaseline)
    (next : headerLine fontWidth fontHeight fontBaseline scan line = .ok (.next scan')) :
    scan'.Padded fontWidth fontHeight fontBaseline := by
  obtain ⟨-, ⟨-, -, -, rfl⟩ | ⟨-, -, w, h, xo, yo, more, nonneg, rfl⟩ | ⟨-, -, -, -, rfl⟩ |
    ⟨-, -, -, rfl⟩⟩ := headerLine_next next
  · exact holds
  · rintro bounds ⟨⟩
    exact ⟨w, h, xo, yo, more, rfl, nonneg, rfl, rfl, rfl, rfl⟩
  · exact holds
  · exact holds

theorem init_consistent (fontWidth : Int) : (CharScan.init fontWidth).Consistent fontWidth :=
  fun differs => absurd rfl differs

theorem init_padded (fontWidth fontHeight fontBaseline : Int) :
    (CharScan.init fontWidth).Padded fontWidth fontHeight fontBaseline := by
  rintro bounds ⟨⟩

/-! ## What every stored entry satisfies -/

/-- The bytes one packed row takes. -/
def rowLength (fontWidth : Int) : Nat :=
  1 + (if fontWidth > 8 then 1 else 0) + (if fontWidth > 16 then 1 else 0) +
    (if fontWidth > 24 then 1 else 0)

/-- A packed row is `rowLength fontWidth` bytes, byte `m` holding bits `8m` to `8m + 7`. -/
theorem packRow_eq (fontWidth : Int) (charData : Nat) :
    packRow fontWidth charData =
      (List.range (rowLength fontWidth)).map fun m => charData / 2 ^ (8 * m) % 256 := by
  unfold packRow rowLength
  split_ifs <;> first | omega | simp [List.range_succ]

@[simp] theorem length_packRow (fontWidth : Int) (charData : Nat) :
    (packRow fontWidth charData).length = rowLength fontWidth := by
  simp [packRow_eq]

/-- A row takes `ceil(fontWidth / 8)` bytes for the widths the row format has room for. -/
theorem rowLength_eq {fontWidth : Int} (low : 1 ≤ fontWidth) (high : fontWidth ≤ 32) :
    (rowLength fontWidth : Int) = (fontWidth - 1) / 8 + 1 := by
  simp only [rowLength]
  split_ifs <;> push_cast <;> omega

theorem charRow_length {fontWidth fontHeight : Int} {scan : CharScan} {i : Nat}
    {lines rest : List String} {row : List Nat}
    (ran : charRow fontWidth fontHeight scan i lines = .ok (row, rest)) :
    row.length = rowLength fontWidth := by
  unfold charRow at ran
  split_ifs at ran
  · cases ran; simp
  · rcases lines with _ | ⟨line, lines⟩
    · cases ran
    · simp only [bind_eq_ok] at ran
      obtain ⟨sourceData, -, ran⟩ := ran
      split at ran <;> simp [bind_eq_ok, pure, Except.pure, throw, throwThe, MonadExceptOf.throw] at ran
      obtain ⟨width, -, rfl, -⟩ := ran
      simp

theorem convertRows_length {fontWidth fontHeight : Int} {scan : CharScan} :
    ∀ {rows : List Nat} {lines rest : List String} {bytes : List Nat},
      convertRows fontWidth fontHeight scan rows lines = .ok (bytes, rest) →
      bytes.length = rows.length * rowLength fontWidth := by
  intro rows
  induction rows with
  | nil => intro lines rest bytes ran; cases ran; simp
  | cons i rows ih =>
    intro lines rest bytes ran
    simp only [convertRows, bind_eq_ok] at ran
    obtain ⟨⟨row, lines'⟩, first, ⟨bytes', rest'⟩, others, ran⟩ := ran
    cases ran
    rw [List.length_append, charRow_length first, ih others, List.length_cons, Nat.succ_mul,
      Nat.add_comm]

/-- What a block's stored entry satisfies: a whole cell of rows, and an advance width
other than the cell's only together with a cleared monospaced flag. -/
def CharEffect.Valid (fontWidth fontHeight : Int) (e : CharEffect) : Prop :=
  ∀ codePoint charBytes charWidth, e.stored = some (codePoint, charBytes, charWidth) →
    charBytes.length = fontHeight.toNat * rowLength fontWidth ∧
      (charWidth ≠ fontWidth → e.clears = true)

/-- The entry a block stores, if any, under the codepoint the block declares. -/
theorem charEffect_stored {fontWidth fontHeight fontBaseline : Int} {charLines rest : List String}
    {e : CharEffect} (ran : charEffect fontWidth fontHeight fontBaseline charLines = .ok (e, rest)) :
    e.Valid fontWidth fontHeight ∧
      ∀ codePoint charBytes charWidth, e.stored = some (codePoint, charBytes, charWidth) →
        codePoint = declaredCodePoint (-1) charLines := by
  simp only [charEffect, bind_eq_ok] at ran
  obtain ⟨header, scanned, ran⟩ := ran
  rcases header with ⟨scan, rest'⟩ | ⟨scan, rest'⟩
  · cases ran
    exact ⟨fun _ _ _ stored => (by cases stored), fun _ _ _ stored => (by cases stored)⟩
  · simp only [bind_eq_ok] at ran
    obtain ⟨⟨bytes, rest''⟩, converted, ran⟩ := ran
    cases ran
    have consistent := scanCharHeader_preserves (fun _ _ _ => headerLine_consistent)
      (init_consistent fontWidth) scanned
    have declared := scanCharHeader_codePoint scanned
    refine ⟨?_, ?_⟩ <;> intro codePoint charBytes charWidth stored <;>
      split_ifs at stored <;> cases stored
    · rw [convertRows_length converted, List.length_range]
      exact ⟨rfl, consistent⟩
    · exact declared

end GmosFontGen.ParseChar
