import GmosFontGen.Format

/-! The text of the three C arrays. `formatFontData`'s loop spells each value out as it
goes: `"%d"` for an index or a width, `"0x%02X"` for a data byte, with `", "` after every
entry but the last of a glyph, `",\n    "` after a glyph's last byte, and nothing after the
array's last entry. `formatFontText` is that loop on the text. Over it, `readInitializer`
reads the body of an initializer list the way a C compiler does, and
`formatFontText_reads_back` says the text of each array the chosen template emits reads
back as the values `formatFontData` fills it with. -/
namespace GmosFontGen.Text
open Python ParseChar ParseFont Grammar Format

/-! ## The loop on the text -/

/-- The separator after byte `j` of cell row `i`: `", "` while the glyph goes on, then
`",\n    "` before the next glyph, and nothing after the last codepoint's. -/
def byteSeparator (fontHeight charWidth codePoint last : Int) (i j : Nat) : List Char :=
  if (i : Int) < fontHeight - 1 ∨ (j : Int) < (charWidth - 1) / 8 then ", ".data
  else if codePoint ≠ last then ",\n    ".data else []

/-- One pass of the copy loop: byte `j` of cell row `i` spelled out, then its separator,
and one more byte counted in `charIndex`. -/
def formatByte (fd : FontDef) (charWidth : Int) (charData : List Nat) (codePoint last : Int)
    (i : Nat) (copied : List Char × Nat) (j : Nat) : Except PyError (List Char × Nat) := do
  let byte ← pyIndex charData (i * byteWidth fd.fontWidth + j)
  pure (copied.1 ++ pyHexByte byte ++ byteSeparator fd.fontHeight charWidth codePoint last i j,
    copied.2 + 1)

/-- `if codePoint != codePointList[-1]: block += ", "`. -/
def entrySeparator (codePoint last : Int) : List Char := if codePoint ≠ last then ", ".data else []

/-- The text `formatFontData`'s loop builds: the bodies of the data, width and index
arrays, and the running count `charIndex` of data bytes. -/
structure FontText where
  charDataBlock : List Char
  charWidthsBlock : List Char
  charIndexBlock : List Char
  charIndex : Nat
  deriving DecidableEq, Repr

/-- One pass of `formatFontData`'s loop, on the text it writes. -/
def formatCharText (fd : FontDef) (codePointList : List Int) (text : FontText)
    (codePoint : Int) : Except PyError FontText := do
  let last ← pyIndex codePointList (-1)
  let charWidth := charWidthOf fd codePoint
  let charData ← charDataOf fd codePoint
  let copied ← (List.range fd.fontHeight.toNat).foldlM (fun copied (i : Nat) =>
      (List.range (byteWidth charWidth).toNat).foldlM
        (formatByte fd charWidth charData codePoint last i) copied)
    (text.charDataBlock, text.charIndex)
  pure { charDataBlock := copied.1,
         charWidthsBlock :=
           text.charWidthsBlock ++ pyDecimal charWidth ++ entrySeparator codePoint last,
         charIndexBlock :=
           text.charIndexBlock ++ pyDecimal text.charIndex ++ entrySeparator codePoint last,
         charIndex := copied.2 }

/-- The array bodies `formatFontData` substitutes into its template, each begun with four
spaces. -/
def formatFontText (fd : FontDef) (codePointList : List Int) : Except PyError FontText :=
  codePointList.foldlM (formatCharText fd codePointList)
    ⟨"    ".data, "    ".data, "    ".data, 0⟩

/-! ## C's reading of an initializer list -/

/-- C's white space: the space, and horizontal tab to carriage return. -/
def isCSpace (c : Char) : Bool := c = ' ' || ('\t' ≤ c && c ≤ '\r')

/-- A piece of an initializer list without the white space around it. -/
def cTrim (cs : List Char) : List Char :=
  ((cs.dropWhile isCSpace).reverse.dropWhile isCSpace).reverse

/-- The value of a digit of `base` (8, 10 or 16); hexadecimal letters of either case. -/
def cDigitValue (base : Nat) (c : Char) : Option Nat :=
  let v := if '0' ≤ c ∧ c ≤ '9' then c.toNat - '0'.toNat
    else if 'a' ≤ c ∧ c ≤ 'f' then c.toNat - 'a'.toNat + 10
    else if 'A' ≤ c ∧ c ≤ 'F' then c.toNat - 'A'.toNat + 10
    else base
  if v < base then some v else none

/-- Digits read onto `acc`, most significant first. -/
def cDigits (base acc : Nat) : List Char → Option Nat
  | [] => some acc
  | c :: cs => (cDigitValue base c).bind fun d => cDigits base (acc * base + d) cs

/-- An integer constant without suffix: hexadecimal after `0x` or `0X`, octal after a
leading `0`, decimal otherwise. -/
def cIntegerConstant : List Char → Option Nat
  | [] => none
  | c :: cs =>
    if c = '0' then
      match cs with
      | x :: d :: ds => if x = 'x' ∨ x = 'X' then cDigits 16 0 (d :: ds) else cDigits 8 0 cs
      | _ => cDigits 8 0 cs
    else if '1' ≤ c ∧ c ≤ '9' then cDigits 10 0 (c :: cs) else none

/-- An initializer: an integer constant, or one under unary minus. -/
def cInitializer : List Char → Option Int
  | [] => none
  | c :: cs =>
    if c = '-' then (cIntegerConstant cs).map fun n => -(n : Int)
    else (cIntegerConstant (c :: cs)).map fun n => (n : Int)

/-- The values of the trimmed pieces between commas; after a trailing comma the last piece
is empty. -/
def readConstants : List (List Char) → Option (List Int)
  | [] => some []
  | [[]] => some []
  | piece :: pieces => do
    let v ← cInitializer piece
    let vs ← readConstants pieces
    pure (v :: vs)

/-- The values a C compiler takes from the body of an initializer list. -/
def readInitializer (body : List Char) : Option (List Int) :=
  readConstants ((body.splitOn ',').map cTrim)

example : readInitializer "    0x3C, 0x42,\n    0x00".data = some [0x3C, 0x42, 0] ∧
    readInitializer "    8, -1, 010".data = some [8, -1, 8] ∧
    readInitializer "    1, 2,".data = some [1, 2] ∧ readInitializer "    ".data = some [] ∧
    readInitializer "    09".data = none ∧ readInitializer "    1 2".data = none := by decide

/-- A character that cannot end a literal early: neither C white space nor a comma. -/
def isPlain (c : Char) : Bool := !isCSpace c && c != ','

/-- A literal the reader takes whole. -/
def IsLiteral (lit : List Char) : Prop := lit ≠ [] ∧ ∀ c ∈ lit, isPlain c = true

/-! ## Python's numerals under C's grammar -/

section Numerals
variable {base : Nat}

/-- Reading back what `Nat.toDigitsCore` writes, with fuel to spare, puts `n` before the
digits it was given. -/
theorem cDigits_toDigitsCore (two : 2 ≤ base) (letterCase : Char → Char)
    (digit : ∀ d < base, cDigitValue base (letterCase (Nat.digitChar d)) = some d) :
    ∀ {fuel n : Nat} (ds : List Char), n < fuel →
      cDigits base 0 ((Nat.toDigitsCore base fuel n ds).map letterCase) =
        cDigits base n (ds.map letterCase)
  | 0, _, _, spare => absurd spare (Nat.not_lt_zero _)
  | fuel + 1, n, ds, spare => by
    simp only [Nat.toDigitsCore]
    split_ifs with top
    · have small : n < base := (Nat.div_eq_zero_iff (by omega)).mp top
      simp [cDigits, Nat.mod_eq_of_lt small, digit n small]
    · have pos : 0 < n := Nat.pos_of_ne_zero fun zero => top (by simp [zero])
      have shorter : n / base < fuel := by
        have := Nat.div_lt_self pos (by omega : 1 < base)
        omega
      rw [cDigits_toDigitsCore two letterCase digit _ shorter]
      simp [cDigits, digit _ (Nat.mod_lt n (by omega : 0 < base)), Nat.div_add_mod']

/-- What `Nat.toDigitsCore` writes, with fuel to spare, starts with a digit of `base`,
which is `0` only for `0`. -/
theorem toDigitsCore_eq_cons (two : 2 ≤ base) :
    ∀ {fuel n : Nat} (ds : List Char), n < fuel →
      ∃ d rest, Nat.toDigitsCore base fuel n ds = Nat.digitChar d :: rest ∧ d < base ∧
        (0 < n → 0 < d)
  | 0, _, _, spare => absurd spare (Nat.not_lt_zero _)
  | fuel + 1, n, ds, spare => by
    simp only [Nat.toDigitsCore]
    split_ifs with top
    · have small : n < base := (Nat.div_eq_zero_iff (by omega)).mp top
      exact ⟨n % base, ds, rfl, Nat.mod_lt n (by omega), by rw [Nat.mod_eq_of_lt small]; exact id⟩
    · have pos : 0 < n := Nat.pos_of_ne_zero fun zero => top (by simp [zero])
      have shorter : n / base < fuel := by
        have := Nat.div_lt_self pos (by omega : 1 < base)
        omega
      obtain ⟨d, rest, spelled, digit, lead⟩ := toDigitsCore_eq_cons two _ shorter
      exact ⟨d, rest, spelled, digit, fun _ => lead (Nat.pos_of_ne_zero top)⟩

theorem mem_toDigitsCore (pos : 0 < base) : ∀ {fuel n : Nat} {ds : List Char} {c : Char},
    c ∈ Nat.toDigitsCore base fuel n ds → (∃ d < base, c = Nat.digitChar d) ∨ c ∈ ds
  | 0, _, _, _, mem => .inr mem
  | fuel + 1, n, ds, c, mem => by
    simp only [Nat.toDigitsCore] at mem
    have digit : n % base < base := Nat.mod_lt n pos
    split_ifs at mem
    · rcases List.mem_cons.mp mem with rfl | mem
      exacts [.inl ⟨_, digit, rfl⟩, .inr mem]
    · rcases mem_toDigitsCore pos mem with found | mem
      · exact .inl found
      rcases List.mem_cons.mp mem with rfl | mem
      exacts [.inl ⟨_, digit, rfl⟩, .inr mem]

theorem cDigits_replicate_zero (pos : 0 < base) (cs : List Char) :
    ∀ k, cDigits base 0 (List.replicate k '0' ++ cs) = cDigits base 0 cs
  | 0 => rfl
  | k + 1 => by
    have zero : cDigitValue base '0' = some 0 := by simp [cDigitValue, pos]
    show cDigits base 0 ('0' :: (List.replicate k '0' ++ cs)) = _
    simp only [cDigits, zero, Option.some_bind, Nat.zero_mul, Nat.zero_add]
    exact cDigits_replicate_zero pos cs k

/-- The digits `Nat.toDigits` writes are plain. -/
theorem isLiteral_toDigits (two : 2 ≤ base) (base16 : base ≤ 16) (letterCase : Char → Char)
    (plain : ∀ d < 16, isPlain (letterCase (Nat.digitChar d)) = true) (n : Nat) :
    IsLiteral ((Nat.toDigits base n).map letterCase) := by
  obtain ⟨d, rest, spelled, -, -⟩ := toDigitsCore_eq_cons two [] (Nat.lt_succ_self n)
  refine ⟨by simp [Nat.toDigits, spelled], fun c spelt => ?_⟩
  obtain ⟨c, mem, rfl⟩ := List.mem_map.mp spelt
  rcases mem_toDigitsCore (by omega) mem with ⟨d, digit, rfl⟩ | mem
  exacts [plain d (Nat.lt_of_lt_of_le digit base16), absurd mem (List.not_mem_nil c)]

end Numerals

theorem cIntegerConstant_toDigits (n : Nat) : cIntegerConstant (Nat.toDigits 10 n) = some n := by
  have read := cDigits_toDigitsCore (by decide : 2 ≤ 10) id (by decide) [] (Nat.lt_succ_self n)
  simp only [List.map_id_fun, id_eq] at read
  rcases Nat.eq_zero_or_pos n with rfl | pos
  · rfl
  obtain ⟨d, rest, spelled, digit, lead⟩ :=
    toDigitsCore_eq_cons (by decide : 2 ≤ 10) [] (Nat.lt_succ_self n)
  have nonzero : ∀ d < 10, 0 < d →
      Nat.digitChar d ≠ '0' ∧ '1' ≤ Nat.digitChar d ∧ Nat.digitChar d ≤ '9' := by decide
  obtain ⟨notZero, one, nine⟩ := nonzero d digit (lead pos)
  unfold Nat.toDigits
  rw [spelled] at read ⊢
  simpa [cIntegerConstant, notZero, one, nine] using read

/-- `"%d"` reads back as its value. -/
theorem cInitializer_pyDecimal (n : Int) : cInitializer (pyDecimal n) = some n := by
  unfold pyDecimal
  split_ifs with negative
  · simp [cInitializer, cIntegerConstant_toDigits, abs_of_neg negative]
  · obtain ⟨d, rest, spelled, digit, -⟩ :=
      toDigitsCore_eq_cons (by decide : 2 ≤ 10) [] (Nat.lt_succ_self n.toNat)
    have notMinus : ∀ d < 10, Nat.digitChar d ≠ '-' := by decide
    have read := cIntegerConstant_toDigits n.toNat
    unfold Nat.toDigits at read ⊢
    rw [spelled] at read ⊢
    simp [cInitializer, notMinus d digit, read]
    omega

theorem isLiteral_pyDecimal (n : Int) : IsLiteral (pyDecimal n) := by
  have digits (m : Nat) : IsLiteral (Nat.toDigits 10 m) := by
    simpa using isLiteral_toDigits (by decide) (by decide) id (by decide) m
  unfold pyDecimal
  split_ifs
  · exact ⟨List.cons_ne_nil _ _, List.forall_mem_cons.mpr ⟨rfl, (digits _).2⟩⟩
  · exact digits _

/-- `"0x%02X"` reads back as its value, however many digits it takes. -/
theorem cInitializer_pyHexByte (n : Nat) : cInitializer (pyHexByte n) = some n := by
  have read := cDigits_toDigitsCore (by decide : 2 ≤ 16) Char.toUpper (by decide) []
    (Nat.lt_succ_self n)
  obtain ⟨d, rest, spelled, -, -⟩ :=
    toDigitsCore_eq_cons (by decide : 2 ≤ 16) [] (Nat.lt_succ_self n)
  have hex (k : Nat) : cIntegerConstant
      ('0' :: 'x' :: (List.replicate k '0' ++ (Nat.toDigits 16 n).map Char.toUpper)) = some n := by
    obtain ⟨t, ts, tail⟩ : ∃ t ts, List.replicate k '0' ++
        (Nat.toDigits 16 n).map Char.toUpper = t :: ts := by
      cases k
      · exact ⟨(Nat.digitChar d).toUpper, rest.map Char.toUpper, by simp [Nat.toDigits, spelled]⟩
      · exact ⟨'0', _, rfl⟩
    simp only [cIntegerConstant, tail, if_true, true_or]
    rw [← tail, cDigits_replicate_zero (by decide : 0 < 16)]
    exact read
  simp [pyHexByte, cInitializer, hex]

theorem isLiteral_pyHexByte (n : Nat) : IsLiteral (pyHexByte n) := by
  have digits := isLiteral_toDigits (by decide : 2 ≤ 16) (by decide) Char.toUpper (by decide) n
  refine ⟨List.cons_ne_nil _ _, fun c mem => ?_⟩
  simp only [pyHexByte, List.mem_cons, List.mem_append, List.mem_replicate] at mem
  rcases mem with rfl | rfl | ⟨-, rfl⟩ | mem
  · rfl
  · rfl
  · rfl
  · exact digits.2 c mem

/-! ## Reading a list of entries -/

/-- Literals, each followed by its separator. -/
def spellEntries (entries : List (List Char × List Char)) : List Char :=
  (entries.map fun e => e.1 ++ e.2).flatten

@[simp] theorem spellEntries_nil : spellEntries [] = [] := rfl

@[simp] theorem spellEntries_cons (e : List Char × List Char) (es : List (List Char × List Char)) :
    spellEntries (e :: es) = e.1 ++ e.2 ++ spellEntries es := by
  simp [spellEntries]

@[simp] theorem spellEntries_append (es₁ es₂ : List (List Char × List Char)) :
    spellEntries (es₁ ++ es₂) = spellEntries es₁ ++ spellEntries es₂ := by
  simp [spellEntries]

/-- A separator as the tool writes one: a comma, then white space. -/
def IsSeparator (sep : List Char) : Prop := ∃ ws, sep = ',' :: ws ∧ ∀ c ∈ ws, isCSpace c = true

theorem isSeparator_comma : IsSeparator ", ".data := ⟨[' '], rfl, by decide⟩

theorem isSeparator_newline : IsSeparator ",\n    ".data := ⟨"\n    ".data, rfl, by decide⟩

/-- Entries each followed by a separator, except that the last may have none. -/
inductive Separated : List (List Char × List Char) → Prop where
  | nil : Separated []
  | bare (lit : List Char) : Separated [(lit, [])]
  | cons {entry : List Char × List Char} {entries : List (List Char × List Char)}
      (comma : IsSeparator entry.2) (rest : Separated entries) : Separated (entry :: entries)

theorem Separated.append {es₁ es₂ : List (List Char × List Char)}
    (commas : ∀ e ∈ es₁, IsSeparator e.2) (rest : Separated es₂) : Separated (es₁ ++ es₂) := by
  induction es₁ with
  | nil => exact rest
  | cons e es ih =>
    simp only [List.mem_cons, forall_eq_or_imp] at commas
    exact .cons commas.1 (ih commas.2)

theorem isPlain_iff {c : Char} : isPlain c = true ↔ isCSpace c = false ∧ c ≠ ',' := by
  simp [isPlain]

theorem IsLiteral.dropWhile {lit : List Char} (literal : IsLiteral lit) :
    lit.dropWhile isCSpace = lit := by
  obtain ⟨c, cs, rfl⟩ := List.exists_cons_of_ne_nil literal.1
  exact List.dropWhile_cons_of_neg
    (by simp [(isPlain_iff.mp (literal.2 c (List.mem_cons_self c cs))).1])

theorem IsLiteral.reverse {lit : List Char} (literal : IsLiteral lit) : IsLiteral lit.reverse :=
  ⟨by simpa using literal.1, fun c mem => literal.2 c (List.mem_reverse.mp mem)⟩

theorem cTrim_blank {ws : List Char} (blank : ∀ c ∈ ws, isCSpace c = true) : cTrim ws = [] := by
  simp [cTrim, List.dropWhile_eq_nil_iff.mpr blank]

theorem cTrim_blank_append {ws lit : List Char} (blank : ∀ c ∈ ws, isCSpace c = true)
    (literal : IsLiteral lit) : cTrim (ws ++ lit) = lit := by
  have front : (ws ++ lit).dropWhile isCSpace = lit := by
    rw [List.dropWhile_append, if_pos (by simp [List.dropWhile_eq_nil_iff.mpr blank]),
      literal.dropWhile]
  rw [cTrim, front, literal.reverse.dropWhile, List.reverse_reverse]

/-- A piece without commas is not split. -/
theorem splitOn_comma_free {cs : List Char} (free : ∀ c ∈ cs, c ≠ ',') :
    cs.splitOn ',' = [cs] :=
  List.splitOnP_eq_single _ _ (by simpa using free)

/-- Text up to a comma is the first piece. -/
theorem splitOn_comma_cons {cs rest : List Char} (free : ∀ c ∈ cs, c ≠ ',') :
    (cs ++ ',' :: rest).splitOn ',' = cs :: rest.splitOn ',' :=
  List.splitOnP_first _ _ (by simpa using free) ',' (by simp) rest

theorem readConstants_cons {piece : List Char} (pieces : List (List Char)) (nonempty : piece ≠ []) :
    readConstants (piece :: pieces) =
      (cInitializer piece).bind fun v => (readConstants pieces).map (v :: ·) := by
  obtain ⟨c, cs, rfl⟩ := List.exists_cons_of_ne_nil nonempty
  simp only [readConstants]
  rcases cInitializer (c :: cs) <;> rcases readConstants pieces <;> rfl

theorem mapM_cInitializer_cons (lit : List Char) (lits : List (List Char)) :
    (lit :: lits).mapM cInitializer =
      (cInitializer lit).bind fun v => (lits.mapM cInitializer).map (v :: ·) := by
  simp only [List.mapM_cons]
  rcases cInitializer lit <;> rcases lits.mapM cInitializer <;> rfl

/-- **Reading entries back.** After a blank lead, literals that the reader takes whole,
each followed by a separator but perhaps the last, read back as the literals' values. -/
theorem readInitializer_spellEntries {entries : List (List Char × List Char)}
    (separated : Separated entries) (literals : ∀ e ∈ entries, IsLiteral e.1) :
    ∀ {lead : List Char}, (∀ c ∈ lead, isCSpace c = true) →
      readInitializer (lead ++ spellEntries entries) = (entries.map Prod.fst).mapM cInitializer := by
  have blankFree {ws : List Char} (blank : ∀ c ∈ ws, isCSpace c = true) : ∀ c ∈ ws, c ≠ ',' :=
    fun c mem comma => absurd (comma ▸ blank c mem) (by decide)
  have pieceFree {ws lit : List Char} (blank : ∀ c ∈ ws, isCSpace c = true)
      (literal : IsLiteral lit) : ∀ c ∈ ws ++ lit, c ≠ ',' := by
    simp only [List.mem_append]
    rintro c (mem | mem)
    exacts [blankFree blank c mem, (isPlain_iff.mp (literal.2 c mem)).2]
  induction separated with
  | nil =>
    intro lead blank
    rw [spellEntries_nil, List.append_nil, readInitializer, splitOn_comma_free (blankFree blank)]
    simp only [List.map_cons, List.map_nil, cTrim_blank blank, readConstants, List.mapM_nil]
    rfl
  | bare lit =>
    intro lead blank
    have literal := literals _ (List.mem_singleton_self _)
    simp only [spellEntries_cons, spellEntries_nil, List.append_nil]
    rw [readInitializer, splitOn_comma_free (pieceFree blank literal)]
    simp only [List.map_cons, List.map_nil, cTrim_blank_append blank literal,
      readConstants_cons _ literal.1, readConstants, mapM_cInitializer_cons, List.mapM_nil]
    rfl
  | @cons entry entries comma _ ih =>
    intro lead blank
    obtain ⟨ws, separator, spaces⟩ := comma
    simp only [List.mem_cons, forall_eq_or_imp] at literals
    have split : lead ++ spellEntries (entry :: entries) =
        (lead ++ entry.1) ++ ',' :: (ws ++ spellEntries entries) := by
      simp [separator]
    rw [split, readInitializer, splitOn_comma_cons (pieceFree blank literals.1), List.map_cons,
      cTrim_blank_append blank literals.1, readConstants_cons _ literals.1.1, List.map_cons,
      mapM_cInitializer_cons, ← ih literals.2 spaces, readInitializer]

/-! ## The loop's text, entry by entry -/

/-- The data `formatFontData` copies from for `codePoint`, where it finds some. -/
def charDataAt (fd : FontDef) (codePoint : Int) : List Nat :=
  (charDataOf fd codePoint).toOption.getD []

/-- Byte `j` of cell row `i` of that data, where it is there. -/
def copiedByte (fd : FontDef) (codePoint : Int) (i j : Nat) : Nat :=
  (pyIndex (charDataAt fd codePoint) (i * byteWidth fd.fontWidth + j)).toOption.getD 0

/-- The data array's entries for one codepoint: each copied byte and its separator. -/
def glyphEntries (fd : FontDef) (last codePoint : Int) : List (List Char × List Char) :=
  (List.range fd.fontHeight.toNat).flatMap fun i =>
    (List.range (byteWidth (charWidthOf fd codePoint)).toNat).map fun j =>
      (pyHexByte (copiedByte fd codePoint i j),
        byteSeparator fd.fontHeight (charWidthOf fd codePoint) codePoint last i j)

/-- The width array's entries. -/
def widthEntries (fd : FontDef) (last : Int) (codes : List Int) : List (List Char × List Char) :=
  codes.map fun c => (pyDecimal (charWidthOf fd c), entrySeparator c last)

/-- The index array's entries, the first codepoint's data at offset `start`. -/
def indexEntries (fd : FontDef) (last : Int) : Nat → List Int → List (List Char × List Char)
  | _, [] => []
  | start, c :: cs => (pyDecimal start, entrySeparator c last) ::
      indexEntries fd last (start + fd.fontHeight.toNat * (byteWidth (charWidthOf fd c)).toNat) cs

/-- A copy that succeeds found the glyph's data and read each byte it emits at its place. -/
theorem charBytesOf_eq_ok {fd : FontDef} {codePoint : Int} {bytes : List Nat}
    (copied : charBytesOf fd codePoint = .ok bytes) :
    charDataOf fd codePoint = .ok (charDataAt fd codePoint) ∧
      (∀ i < fd.fontHeight.toNat, ∀ j < (byteWidth (charWidthOf fd codePoint)).toNat,
        pyIndex (charDataAt fd codePoint) (i * byteWidth fd.fontWidth + j) =
          .ok (copiedByte fd codePoint i j)) ∧
      bytes = (List.range fd.fontHeight.toNat).flatMap fun i =>
        (List.range (byteWidth (charWidthOf fd codePoint)).toNat).map (copiedByte fd codePoint i) := by
  obtain ⟨charData, found, copy⟩ := bind_eq_ok.mp copied
  have stored : charDataAt fd codePoint = charData := by
    simp [charDataAt, found, Except.toOption]
  rw [copyCharData] at copy
  rcases ran : (List.range fd.fontHeight.toNat).mapM (fun (i : Nat) =>
      (List.range (byteWidth (charWidthOf fd codePoint)).toNat).mapM fun (j : Nat) =>
        pyIndex charData (i * byteWidth fd.fontWidth + j)) with e | rows
  · rw [ran] at copy
    cases copy
  rw [ran, map_ok, Except.ok.injEq] at copy
  subst copy
  obtain ⟨eachRow, rfl⟩ := mapM_eq_ok_values ran
  have row (i : Nat) (lt : i < fd.fontHeight.toNat) :=
    mapM_eq_ok_values ((eachRow i (List.mem_range.mpr lt)).trans rfl)
  refine ⟨stored ▸ found, fun i lt j col => ?_, ?_⟩
  · rw [stored, (row i lt).1 j (List.mem_range.mpr col)]
    simp [copiedByte, stored]
  · rw [List.flatMap]
    congr 1
    refine List.map_congr_left fun i mem => ?_
    have lt := List.mem_range.mp mem
    rw [(row i lt).2]
    simp [copiedByte, stored]

section Loop
variable {fd : FontDef} {last : Int}

/-- **Run lemma of the copy loop over one cell row.** -/
theorem foldlM_formatByte {charWidth codePoint : Int} {charData : List Nat} {i : Nat}
    {byteAt : Nat → Nat} : ∀ {js : List Nat},
      (∀ j ∈ js, pyIndex charData (i * byteWidth fd.fontWidth + j) = .ok (byteAt j)) →
      ∀ copied : List Char × Nat,
        js.foldlM (formatByte fd charWidth charData codePoint last i) copied =
          .ok (copied.1 ++ spellEntries (js.map fun j => (pyHexByte (byteAt j),
            byteSeparator fd.fontHeight charWidth codePoint last i j)), copied.2 + js.length)
  | [], _, copied => by simp; rfl
  | j :: js, reads, copied => by
    simp only [List.mem_cons, forall_eq_or_imp] at reads
    simp only [List.foldlM_cons, formatByte, reads.1, ok_bind, pure_bind,
      foldlM_formatByte reads.2]
    simp [Nat.add_assoc, Nat.add_comm 1]

/-- **Run lemma of the copy loop over the cell rows.** -/
theorem foldlM_formatRow {charWidth codePoint : Int} {charData : List Nat}
    {byteAt : Nat → Nat → Nat} : ∀ {is : List Nat},
      (∀ i ∈ is, ∀ j < (byteWidth charWidth).toNat,
        pyIndex charData (i * byteWidth fd.fontWidth + j) = .ok (byteAt i j)) →
      ∀ copied : List Char × Nat,
        is.foldlM (fun copied (i : Nat) => (List.range (byteWidth charWidth).toNat).foldlM
            (formatByte fd charWidth charData codePoint last i) copied) copied =
          .ok (copied.1 ++ spellEntries (is.flatMap fun i =>
              (List.range (byteWidth charWidth).toNat).map fun j => (pyHexByte (byteAt i j),
                byteSeparator fd.fontHeight charWidth codePoint last i j)),
            copied.2 + is.length * (byteWidth charWidth).toNat)
  | [], _, copied => by simp; rfl
  | i :: is, reads, copied => by
    simp only [List.mem_cons, forall_eq_or_imp] at reads
    rw [List.foldlM_cons, foldlM_formatByte (fun j mem => reads.1 j (List.mem_range.mp mem)),
      ok_bind, foldlM_formatRow reads.2]
    simp [Nat.add_assoc, Nat.succ_mul, Nat.add_comm]

/-- **Step lemma.** One pass of the loop appends the codepoint's bytes, its width and its
index, each spelled out with its separator. -/
theorem formatCharText_eq {codePointList : List Int} (lastOf : pyIndex codePointList (-1) = .ok last)
    {codePoint : Int} {bytes : List Nat} (copied : charBytesOf fd codePoint = .ok bytes)
    (text : FontText) :
    formatCharText fd codePointList text codePoint = .ok
      { charDataBlock := text.charDataBlock ++ spellEntries (glyphEntries fd last codePoint),
        charWidthsBlock := text.charWidthsBlock ++ spellEntries (widthEntries fd last [codePoint]),
        charIndexBlock :=
          text.charIndexBlock ++ spellEntries (indexEntries fd last text.charIndex [codePoint]),
        charIndex := text.charIndex +
          fd.fontHeight.toNat * (byteWidth (charWidthOf fd codePoint)).toNat } := by
  obtain ⟨found, reads, -⟩ := charBytesOf_eq_ok copied
  simp only [formatCharText, lastOf, found, ok_bind, @foldlM_formatRow fd last _ _ _
    (copiedByte fd codePoint) _ fun i mem => reads i (List.mem_range.mp mem)]
  simp [glyphEntries, widthEntries, indexEntries, List.append_assoc]
  rfl

/-- **Run lemma.** When every codepoint's bytes are there, the loop writes, after what it
was given, each array's entries in codepoint order. -/
theorem foldlM_formatCharText {codePointList : List Int}
    (lastOf : pyIndex codePointList (-1) = .ok last) : ∀ {codes : List Int},
      (∀ c ∈ codes, ∃ bytes, charBytesOf fd c = .ok bytes) → ∀ text : FontText,
        codes.foldlM (formatCharText fd codePointList) text = .ok
          { charDataBlock := text.charDataBlock ++ spellEntries (codes.flatMap (glyphEntries fd last)),
            charWidthsBlock := text.charWidthsBlock ++ spellEntries (widthEntries fd last codes),
            charIndexBlock :=
              text.charIndexBlock ++ spellEntries (indexEntries fd last text.charIndex codes),
            charIndex := text.charIndex + (codes.map fun c =>
              fd.fontHeight.toNat * (byteWidth (charWidthOf fd c)).toNat).sum }
  | [], _, text => by simp [widthEntries, indexEntries]; rfl
  | c :: cs, found, text => by
    simp only [List.mem_cons, forall_eq_or_imp] at found
    obtain ⟨bytes, copied⟩ := found.1
    rw [List.foldlM_cons, formatCharText_eq lastOf copied, ok_bind,
      foldlM_formatCharText lastOf found.2]
    simp [widthEntries, indexEntries, List.append_assoc, Nat.add_assoc]

end Loop

/-! ## Reading the arrays back -/

theorem mapM_cInitializer_pyHexByte :
    ∀ ns : List Nat, (ns.map pyHexByte).mapM cInitializer = some (ns.map fun n : Nat => (n : Int))
  | [] => rfl
  | n :: ns => by
    rw [List.map_cons, mapM_cInitializer_cons, cInitializer_pyHexByte,
      mapM_cInitializer_pyHexByte ns]
    rfl

theorem mapM_cInitializer_pyDecimal :
    ∀ ns : List Int, (ns.map pyDecimal).mapM cInitializer = some ns
  | [] => rfl
  | n :: ns => by
    rw [List.map_cons, mapM_cInitializer_cons, cInitializer_pyDecimal,
      mapM_cInitializer_pyDecimal ns]
    rfl

/-- Entries whose separators are those of `init ++ [last]`, the last codepoint not
repeated, are separated. -/
theorem separated_of_entrySeparators {es : List (List Char × List Char)} {init : List Int}
    {last : Int} (once : last ∉ init)
    (seps : es.map Prod.snd = (init ++ [last]).map (entrySeparator · last)) : Separated es := by
  rw [List.map_append, List.map_eq_append_iff] at seps
  obtain ⟨es₁, es₂, rfl, commas, final⟩ := seps
  match es₂, final with
  | [(lit, sep)], final =>
    simp only [List.map_cons, List.map_nil, entrySeparator, ne_eq, not_true_eq_false,
      ite_false, List.cons.injEq, and_true] at final
    subst final
    refine Separated.append (fun e mem => ?_) (.bare lit)
    obtain ⟨c, mem', sepEq⟩ := List.mem_map.mp (commas ▸ List.mem_map_of_mem Prod.snd mem)
    rw [← sepEq, entrySeparator, if_pos fun (same : c = last) => once (same ▸ mem')]
    exact isSeparator_comma

section Arrays
variable {fd : FontDef} {last : Int}

theorem glyphEntries_commas {c : Int} (other : c ≠ last) :
    ∀ e ∈ glyphEntries fd last c, IsSeparator e.2 := by
  intro e mem
  simp only [glyphEntries, List.mem_flatMap, List.mem_map] at mem
  obtain ⟨i, -, j, -, rfl⟩ := mem
  unfold byteSeparator
  split_ifs
  exacts [isSeparator_comma, isSeparator_newline]

/-- The last codepoint's bytes are separated by `", "`, and nothing follows the last. -/
theorem separated_glyphEntries : Separated (glyphEntries fd last last) := by
  rcases rows : fd.fontHeight.toNat with _ | h
  · simpa [glyphEntries, rows] using Separated.nil
  rcases cols : (byteWidth (charWidthOf fd last)).toNat with _ | k
  · rw [glyphEntries, cols, List.flatMap_eq_nil_iff.mpr (by simp)]
    exact .nil
  unfold byteWidth at cols
  have inner (i j : Nat) (before : i < h ∨ (i = h ∧ j < k)) :
      byteSeparator fd.fontHeight (charWidthOf fd last) last last i j = ", ".data := by
    rw [byteSeparator, if_pos (by omega)]
  have final : byteSeparator fd.fontHeight (charWidthOf fd last) last last h k = [] := by
    rw [byteSeparator, if_neg (by omega), if_neg (not_not_intro rfl)]
  simp only [glyphEntries, rows, byteWidth, cols, List.range_succ, List.flatMap_append,
    List.flatMap_cons, List.flatMap_nil, List.append_nil, List.map_append, List.map_cons,
    List.map_nil, final]
  rw [← List.append_assoc]
  refine Separated.append ?_ (.bare _)
  intro e mem
  simp only [List.mem_append, List.mem_flatMap, List.mem_map, List.mem_range,
    List.mem_singleton] at mem
  rcases mem with ⟨i, lt, ⟨j, -, rfl⟩ | rfl⟩ | ⟨j, lt, rfl⟩
  · rw [inner i j (.inl lt)]
    exact isSeparator_comma
  · rw [inner i k (.inl lt)]
    exact isSeparator_comma
  · rw [inner h j (.inr ⟨rfl, lt⟩)]
    exact isSeparator_comma

theorem glyphEntries_literals {c : Int} : ∀ e ∈ glyphEntries fd last c, IsLiteral e.1 := by
  intro e mem
  simp only [glyphEntries, List.mem_flatMap, List.mem_map] at mem
  obtain ⟨i, -, j, -, rfl⟩ := mem
  exact isLiteral_pyHexByte _

theorem map_fst_glyphEntries {c : Int} {bytes : List Nat} (copied : charBytesOf fd c = .ok bytes) :
    (glyphEntries fd last c).map Prod.fst = bytes.map pyHexByte := by
  rw [(charBytesOf_eq_ok copied).2.2]
  simp [glyphEntries, List.map_flatMap, Function.comp_def]

theorem length_of_charBytesOf {c : Int} {bytes : List Nat} (copied : charBytesOf fd c = .ok bytes) :
    bytes.length = fd.fontHeight.toNat * (byteWidth (charWidthOf fd c)).toNat := by
  rw [(charBytesOf_eq_ok copied).2.2]
  simp [List.length_flatMap, Function.comp_def, List.map_const']

theorem map_fst_flatMap_glyphEntries {bytes : Int → List Nat} : ∀ {codes : List Int},
    (∀ c ∈ codes, charBytesOf fd c = .ok (bytes c)) →
      (codes.flatMap (glyphEntries fd last)).map Prod.fst = (codes.map bytes).flatten.map pyHexByte
  | [], _ => rfl
  | c :: cs, copied => by
    simp only [List.mem_cons, forall_eq_or_imp] at copied
    rw [List.flatMap_cons, List.map_append, map_fst_glyphEntries copied.1,
      map_fst_flatMap_glyphEntries copied.2]
    simp

theorem map_snd_indexEntries : ∀ (start : Nat) (codes : List Int),
    (indexEntries fd last start codes).map Prod.snd = codes.map (entrySeparator · last)
  | _, [] => rfl
  | start, c :: cs => by simp [indexEntries, map_snd_indexEntries _ cs]

theorem map_fst_indexEntries {bytes : Int → List Nat} : ∀ {codes : List Int},
    (∀ c ∈ codes, charBytesOf fd c = .ok (bytes c)) → ∀ start,
      (indexEntries fd last start codes).map Prod.fst =
        (entriesFrom fd bytes start codes).map fun e => pyDecimal e.index
  | [], _, _ => rfl
  | c :: cs, copied, start => by
    simp only [List.mem_cons, forall_eq_or_imp] at copied
    simp [indexEntries, entriesFrom, length_of_charBytesOf copied.1,
      map_fst_indexEntries copied.2]

variable {init : List Int} {lead : List Char}

/-- The data array reads back as the codepoints' bytes, one after another. -/
theorem readInitializer_glyphEntries {bytes : Int → List Nat} (once : last ∉ init)
    (copied : ∀ c ∈ init ++ [last], charBytesOf fd c = .ok (bytes c))
    (blank : ∀ c ∈ lead, isCSpace c = true) :
    readInitializer (lead ++ spellEntries ((init ++ [last]).flatMap (glyphEntries fd last))) =
      some (((init ++ [last]).map bytes).flatten.map fun n : Nat => (n : Int)) := by
  have separated : Separated ((init ++ [last]).flatMap (glyphEntries fd last)) := by
    rw [List.flatMap_append, List.flatMap_singleton]
    refine Separated.append (fun e mem => ?_) separated_glyphEntries
    obtain ⟨c, mem, glyph⟩ := List.mem_flatMap.mp mem
    exact glyphEntries_commas (fun (same : c = last) => once (same ▸ mem)) e glyph
  have literals : ∀ e ∈ (init ++ [last]).flatMap (glyphEntries fd last), IsLiteral e.1 := by
    intro e mem
    obtain ⟨c, -, glyph⟩ := List.mem_flatMap.mp mem
    exact glyphEntries_literals e glyph
  rw [readInitializer_spellEntries separated literals blank, map_fst_flatMap_glyphEntries copied,
    mapM_cInitializer_pyHexByte]

/-- The width array reads back as the codepoints' widths. -/
theorem readInitializer_widthEntries (once : last ∉ init) (blank : ∀ c ∈ lead, isCSpace c = true) :
    readInitializer (lead ++ spellEntries (widthEntries fd last (init ++ [last]))) =
      some ((init ++ [last]).map (charWidthOf fd)) := by
  have separated := @separated_of_entrySeparators (widthEntries fd last (init ++ [last])) init
    last once (by simp [widthEntries])
  have literals : ∀ e ∈ widthEntries fd last (init ++ [last]), IsLiteral e.1 := by
    intro e mem
    obtain ⟨c, -, rfl⟩ := List.mem_map.mp mem
    exact isLiteral_pyDecimal _
  rw [readInitializer_spellEntries separated literals blank, widthEntries]
  simpa [Function.comp_def] using mapM_cInitializer_pyDecimal ((init ++ [last]).map (charWidthOf fd))

/-- The index array reads back as the offsets at which each codepoint's bytes start. -/
theorem readInitializer_indexEntries {bytes : Int → List Nat} (once : last ∉ init)
    (copied : ∀ c ∈ init ++ [last], charBytesOf fd c = .ok (bytes c))
    (blank : ∀ c ∈ lead, isCSpace c = true) :
    readInitializer (lead ++ spellEntries (indexEntries fd last 0 (init ++ [last]))) =
      some ((entriesFrom fd bytes 0 (init ++ [last])).map fun e => (e.index : Int)) := by
  have separated :=
    separated_of_entrySeparators once (@map_snd_indexEntries fd last 0 (init ++ [last]))
  have literals : ∀ e ∈ indexEntries fd last 0 (init ++ [last]), IsLiteral e.1 := by
    intro e mem
    have spelled := List.mem_map_of_mem Prod.fst mem
    rw [map_fst_indexEntries copied] at spelled
    obtain ⟨e', -, spelled⟩ := List.mem_map.mp spelled
    rw [← spelled]
    exact isLiteral_pyDecimal _
  rw [readInitializer_spellEntries separated literals blank, map_fst_indexEntries copied]
  simpa [List.map_map, Function.comp_def] using mapM_cInitializer_pyDecimal
    ((entriesFrom fd bytes 0 (init ++ [last])).map fun e => (e.index : Int))

end Arrays

/-- `codePointList[-1]`. -/
theorem pyIndex_concat_last (init : List Int) (last : Int) : pyIndex (init ++ [last]) (-1) = .ok last := by
  simp [pyIndex]

/-- What a `formatFontData` that succeeds fills its template with, in terms of the bytes
each requested codepoint emits. -/
theorem formatFontData_values {fd : FontDef} {fontEncoding : String} {codes : List Int}
    {src : FontSource} (formatted : formatFontData fd fontEncoding codes = .ok src) :
    let bytes := fun c => (charBytesOf fd c).toOption.getD []
    (∀ c ∈ codes, charBytesOf fd c = .ok (bytes c)) ∧ src.charData = (codes.map bytes).flatten ∧
      (∀ widths, src.charWidths = some widths → widths = codes.map (charWidthOf fd)) ∧
      (∀ index, src.charIndex = some index →
        index = (entriesFrom fd bytes 0 codes).map CharEntry.index) := by
  intro bytes
  obtain ⟨loop, folded, ran⟩ := bind_eq_ok.mp formatted
  obtain ⟨charSetName, named, -⟩ := bind_eq_ok.mp ran
  replace named : fd.charSetName = some charSetName := by
    unfold charSetNameOf at named
    split at named <;> cases named
    assumption
  have each : ∀ c ∈ codes, charBytesOf fd c = .ok (bytes c) := by
    intro c mem
    obtain ⟨data, found⟩ := charBytesOf_of_foldlM folded c mem
    simp [bytes, found, Except.toOption]
  rw [formatFontData_eq named each] at formatted
  cases formatted
  refine ⟨each, rfl, fun widths given => ?_, fun index given => ?_⟩
  · dsimp only at given
    split_ifs at given
    exact (Option.some.inj given).symm
  · dsimp only at given
    split_ifs at given
    rw [← Option.some.inj given, map_index_entriesFrom]
    simp

/-- The round trip of the three arrays, assembled from the readings of each above. -/
theorem formatFontText_readInitializer {fd : FontDef} {fontEncoding : String} {codes : List Int}
    {src : FontSource} (formatted : formatFontData fd fontEncoding codes = .ok src)
    (lastOnce : ∀ c ∈ codes.dropLast, codes.getLast? ≠ some c) :
    ∃ text, formatFontText fd codes = .ok text ∧
      readInitializer text.charDataBlock = some (src.charData.map fun n : Nat => (n : Int)) ∧
      (∀ widths, src.charWidths = some widths →
        readInitializer text.charWidthsBlock = some widths) ∧
      (∀ index, src.charIndex = some index →
        readInitializer text.charIndexBlock = some (index.map fun n : Nat => (n : Int))) := by
  obtain ⟨each, data, widths, index⟩ := formatFontData_values formatted
  have lead : ∀ c ∈ "    ".data, isCSpace c = true := by decide
  rcases List.eq_nil_or_concat codes with rfl | ⟨init, last, rfl⟩
  · have blank : readInitializer "    ".data = some [] := by decide
    refine ⟨⟨"    ".data, "    ".data, "    ".data, 0⟩, rfl, ?_, ?_, ?_⟩
    · simp [data, blank]
    · intro ws given
      simp [widths ws given, blank]
    · intro is given
      simp [index is given, blank, entriesFrom]
  rw [List.concat_eq_append] at *
  have once : last ∉ init := fun mem =>
    lastOnce last (by rwa [List.dropLast_concat]) (by rw [List.getLast?_concat])
  refine ⟨_, foldlM_formatCharText (pyIndex_concat_last init last) (fun c mem => ⟨_, each c mem⟩) _,
    ?_, fun ws given => ?_, fun is given => ?_⟩
  · rw [readInitializer_glyphEntries once each lead, data]
  · rw [readInitializer_widthEntries once lead, widths ws given]
  · rw [readInitializer_indexEntries once each lead, index is given, List.map_map]
    rfl

/-- **The C text reads back as the arrays.** When `formatFontData` fills its template, the
text its loop writes for the data array, and for the width and index arrays where the
template has them, reads back under C's grammar as the values the template is filled
with, provided the last requested codepoint is not also requested earlier. -/
theorem formatFontText_reads_back {fd : FontDef} {fontEncoding : String} {codes : List Int}
    {src : FontSource} (formatted : formatFontData fd fontEncoding codes = .ok src)
    (lastOnce : ∀ c ∈ codes.dropLast, codes.getLast? ≠ some c) :
    ∃ text, formatFontText fd codes = .ok text ∧
      readInitializer text.charDataBlock = some (src.charData.map fun n : Nat => (n : Int)) ∧
      (∀ widths, src.charWidths = some widths →
        readInitializer text.charWidthsBlock = some widths) ∧
      (∀ index, src.charIndex = some index →
        readInitializer text.charIndexBlock = some (index.map fun n : Nat => (n : Int))) :=
  formatFontText_readInitializer formatted lastOnce

theorem spaceAndA_reads_back : ∃ fd src, parseFontBDF "A" (["FONTBOUNDINGBOX 8 8 0 -1"] ++
      spaceBlock ++ letterA ++ ["ENDFONT"]) = .ok fd ∧
    formatFontData (withAsciiCharSet fd) "ASCII" [0x20, 0x41] = .ok src ∧
    (∀ c ∈ [(0x20 : Int), 0x41].dropLast, [(0x20 : Int), 0x41].getLast? ≠ some c) ∧
    ∃ text, formatFontText (withAsciiCharSet fd) [0x20, 0x41] = .ok text ∧
      readInitializer text.charDataBlock = some (src.charData.map fun n : Nat => (n : Int)) ∧
      (∀ widths, src.charWidths = some widths →
        readInitializer text.charWidthsBlock = some widths) ∧
      (∀ index, src.charIndex = some index →
        readInitializer text.charIndexBlock = some (index.map fun n : Nat => (n : Int))) :=
  ⟨_, _, rfl, rfl, by decide, formatFontText_reads_back rfl (by decide)⟩

/-! ## A repeated last codepoint

`formatFontData` tells the last entry of an array by its value, not by its place: every
entry whose codepoint equals the list's last one goes without a separator. -/

/-- Splitting makes one piece more than there are separators. -/
theorem length_splitOnP (p : α → Bool) :
    ∀ l : List α, (l.splitOnP p).length = (l.filter p).length + 1
  | [] => rfl
  | x :: xs => by
    rw [List.splitOnP_cons]
    by_cases sep : p x <;> simp [sep, length_splitOnP p xs]

/-- A read takes at most one value from each piece. -/
theorem length_of_readConstants : ∀ {pieces : List (List Char)} {vs : List Int},
    readConstants pieces = some vs → vs.length ≤ pieces.length
  | [], vs, read => by cases read; rfl
  | [] :: [], vs, read => by cases read; simp
  | [] :: piece :: pieces, vs, read => by simp [readConstants, cInitializer] at read
  | (c :: cs) :: pieces, vs, read => by
    rw [readConstants_cons _ (List.cons_ne_nil c cs)] at read
    obtain ⟨v, -, read⟩ := Option.bind_eq_some.mp read
    obtain ⟨rest, tail, rfl⟩ := Option.map_eq_some'.mp read
    simpa using length_of_readConstants tail

/-- A C initializer list has at most one value more than it has commas. -/
theorem length_of_readInitializer {body : List Char} {vs : List Int}
    (read : readInitializer body = some vs) : vs.length ≤ (body.filter (· == ',')).length + 1 := by
  have fewer := length_of_readConstants read
  rwa [List.length_map, List.splitOn, length_splitOnP] at fewer

theorem filter_comma_literal {lit : List Char} (literal : IsLiteral lit) :
    lit.filter (· == ',') = [] :=
  List.filter_eq_nil_iff.mpr fun c mem => by simpa using (isPlain_iff.mp (literal.2 c mem)).2

/-- The width array's text has one comma for each entry whose codepoint is not the last. -/
theorem commas_widthEntries (fd : FontDef) (last : Int) : ∀ codes : List Int,
    ((spellEntries (widthEntries fd last codes)).filter (· == ',')).length =
      (codes.filter (· ≠ last)).length
  | [] => rfl
  | c :: cs => by
    have commas := commas_widthEntries fd last cs
    simp only [widthEntries, List.map_cons, spellEntries_cons] at commas ⊢
    rw [List.filter_append, List.filter_append, filter_comma_literal (isLiteral_pyDecimal _),
      List.length_append, List.length_append, commas, List.filter_cons]
    by_cases same : c = last <;> simp [entrySeparator, same]
    omega

/-- **A repeated last codepoint runs width entries together.** When the last requested
codepoint is also requested earlier, `formatFontData` still fills its template, but the
text its loop writes for the width array has fewer commas than it needs, and no longer
reads back under C's grammar as the advance widths. -/
theorem formatFontText_widths_run_together {fd : FontDef} {fontEncoding : String}
    {init : List Int} {last : Int} {src : FontSource}
    (formatted : formatFontData fd fontEncoding (init ++ [last]) = .ok src)
    (repeated : last ∈ init) :
    ∃ text, formatFontText fd (init ++ [last]) = .ok text ∧
      readInitializer text.charWidthsBlock ≠ some ((init ++ [last]).map (charWidthOf fd)) := by
  obtain ⟨each, -⟩ := formatFontData_values formatted
  refine ⟨_, foldlM_formatCharText (pyIndex_concat_last init last)
    (fun c mem => ⟨_, each c mem⟩) _, fun read => ?_⟩
  have fewer := length_of_readInitializer read
  have dropped : (init.filter (· ≠ last)).length < init.length :=
    List.length_filter_lt_length_iff_exists.mpr ⟨last, repeated, by simp⟩
  have blank : "    ".data.filter (· == ',') = [] := by decide
  have lastDropped : [last].filter (· ≠ last) = [] := by simp
  rw [List.length_map, List.filter_append, blank, List.nil_append, commas_widthEntries,
    List.filter_append, lastDropped, List.append_nil, List.length_append] at fewer
  simp only [List.length_singleton] at fewer
  omega

theorem spaceAndA_repeated : ∃ fd src, parseFontBDF "A" (["FONTBOUNDINGBOX 8 8 0 -1"] ++
      spaceBlock ++ letterA ++ ["ENDFONT"]) = .ok fd ∧
    formatFontData (withAsciiCharSet fd) "ASCII" [0x41, 0x20, 0x41] = .ok src ∧
    (0x41 : Int) ∈ ([0x41, 0x20] : List Int) ∧
    ∃ text, formatFontText (withAsciiCharSet fd) [0x41, 0x20, 0x41] = .ok text ∧
      readInitializer text.charWidthsBlock ≠
        some ([0x41, 0x20, 0x41].map (charWidthOf (withAsciiCharSet fd))) :=
  let ⟨fd, src, parsed, formatted⟩ : ∃ fd src, parseFontBDF "A" (["FONTBOUNDINGBOX 8 8 0 -1"] ++
      spaceBlock ++ letterA ++ ["ENDFONT"]) = .ok fd ∧
    formatFontData (withAsciiCharSet fd) "ASCII" [0x41, 0x20, 0x41] = .ok src := ⟨_, _, rfl, rfl⟩
  ⟨fd, src, parsed, formatted, by decide,
    @formatFontText_widths_run_together (withAsciiCharSet fd) "ASCII" [0x41, 0x20] 0x41 src
      formatted (by decide)⟩

theorem nodup_asciiCodePoints : asciiCodePoints.Nodup :=
  (List.nodup_range 95).map fun a b same => by simpa using same

/-- A list without repeats does not repeat its last element. -/
theorem lastOnce_of_nodup {codes : List Int} (distinct : codes.Nodup) :
    ∀ c ∈ codes.dropLast, codes.getLast? ≠ some c := by
  rcases List.eq_nil_or_concat codes with rfl | ⟨init, last, rfl⟩
  · simp
  rw [List.concat_eq_append] at *
  rw [List.dropLast_concat, List.getLast?_concat]
  intro c mem same
  cases Option.some.inj same
  exact (List.nodup_append.mp distinct).2.2 mem (List.mem_singleton_self _)

/-- **Every font the tool converts is written out right.** For each font file `main`
turns into a source file, the text of the data array, and of the width and index arrays
where the chosen template has them, reads back under C's grammar as the values the
template is filled with: the ASCII codepoints are distinct, so every array ends where
its last entry does. -/
theorem generateFont_reads_back {fontName : String} {fileLines : List String}
    {source : FontSource} {entry : FontHeader}
    (generated : generateFont fontName fileLines = .ok (source, entry)) :
    ∃ fd text, parseFontBDF fontName fileLines = .ok fd ∧
      formatFontText (withAsciiCharSet fd) asciiCodePoints = .ok text ∧
      readInitializer text.charDataBlock = some (source.charData.map fun n : Nat => (n : Int)) ∧
      (∀ widths, source.charWidths = some widths →
        readInitializer text.charWidthsBlock = some widths) ∧
      (∀ index, source.charIndex = some index →
        readInitializer text.charIndexBlock = some (index.map fun n : Nat => (n : Int))) := by
  obtain ⟨fd, parsed, generated⟩ := bind_eq_ok.mp generated
  obtain ⟨src, formatted, generated⟩ := bind_eq_ok.mp generated
  obtain ⟨hdr, -, generated⟩ := bind_eq_ok.mp generated
  cases generated
  obtain ⟨text, written, readBack⟩ :=
    formatFontText_readInitializer formatted (lastOnce_of_nodup nodup_asciiCodePoints)
  exact ⟨fd, text, parsed, written, readBack⟩

set_option maxRecDepth 4000 in
theorem spaceAndA_generated : ∃ source entry, generateFont "A" (["FONTBOUNDINGBOX 8 8 0 -1"] ++
    spaceBlock ++ letterA ++ ["ENDFONT"]) = .ok (source, entry) :=
  ⟨_, _, rfl⟩

theorem spaceAndA_written : ∃ source entry, generateFont "A" (["FONTBOUNDINGBOX 8 8 0 -1"] ++
      spaceBlock ++ letterA ++ ["ENDFONT"]) = .ok (source, entry) ∧
    ∃ fd text, parseFontBDF "A" (["FONTBOUNDINGBOX 8 8 0 -1"] ++ spaceBlock ++ letterA ++
        ["ENDFONT"]) = .ok fd ∧
      formatFontText (withAsciiCharSet fd) asciiCodePoints = .ok text ∧
      readInitializer text.charDataBlock = some (source.charData.map fun n : Nat => (n : Int)) ∧
      (∀ widths, source.charWidths = some widths →
        readInitializer text.charWidthsBlock = some widths) ∧
      (∀ index, source.charIndex = some index →
        readInitializer text.charIndexBlock = some (index.map fun n : Nat => (n : Int))) :=
  let ⟨source, entry, generated⟩ := spaceAndA_generated
  ⟨source, entry, generated, generateFont_reads_back generated⟩

/-! ## What the arrays hold

C converts each initializer to the array's element type, modulo `2 ^ bits` for the
unsigned types the templates use. The data array is `uint8_t`: every byte the parser
stores is one `& 0xFF` of a packed row (`parseFontBDF_bytesFit`), so the bytes
`formatFontData` emits fit it and the compiler keeps each one as it is. -/

/-- The values a C array of `bits`-bit unsigned elements holds for initializers `vs`. -/
def unsignedArray (bits : Nat) (vs : List Int) : List Nat :=
  vs.map fun v => (v % 2 ^ bits).toNat

theorem mem_of_pyIndex {xs : List α} {i : Int} {x : α} (found : pyIndex xs i = .ok x) : x ∈ xs := by
  unfold pyIndex at found
  split at found <;> cases found
  rename_i read
  split_ifs at read <;> first | cases read | exact List.getElem?_mem read

/-- The bytes a codepoint emits are bytes of a stored glyph. -/
theorem charBytesOf_fit {fd : FontDef} (fits : BytesFit fd) {c : Int} {bytes : List Nat}
    (copied : charBytesOf fd c = .ok bytes) : ∀ b ∈ bytes, b < 256 := by
  obtain ⟨found, reads, rfl⟩ := charBytesOf_eq_ok copied
  have glyph : ∃ c', fd.charSet c' = some (charDataAt fd c) := by
    unfold charDataOf at found
    split at found
    · rename_i d stored
      exact ⟨c, stored.trans (by simpa [pure, Except.pure] using found)⟩
    split at found
    · rename_i d stored
      exact ⟨0x20, stored.trans (by simpa [pure, Except.pure] using found)⟩
    cases found
  obtain ⟨c', stored⟩ := glyph
  intro b mem
  simp only [List.mem_flatMap, List.mem_map, List.mem_range] at mem
  obtain ⟨i, row, j, col, rfl⟩ := mem
  exact fits c' _ stored _ (mem_of_pyIndex (reads i row j col))

/-- **The data array holds the glyph bytes exactly.** For every font the tool converts,
each byte the source's data array gets fits a `uint8_t`, so the array the compiler builds
from the text of that array is the bytes themselves. -/
theorem generateFont_dataArray {fontName : String} {fileLines : List String}
    {source : FontSource} {entry : FontHeader}
    (generated : generateFont fontName fileLines = .ok (source, entry)) :
    (∀ b ∈ source.charData, b < 256) ∧ ∃ fd text, parseFontBDF fontName fileLines = .ok fd ∧
      formatFontText (withAsciiCharSet fd) asciiCodePoints = .ok text ∧
      (readInitializer text.charDataBlock).map (unsignedArray 8) = some source.charData := by
  obtain ⟨fd, parsed, generated⟩ := bind_eq_ok.mp generated
  obtain ⟨src, formatted, generated⟩ := bind_eq_ok.mp generated
  obtain ⟨hdr, -, generated⟩ := bind_eq_ok.mp generated
  cases generated
  have fits : BytesFit (withAsciiCharSet fd) := by
    simpa [BytesFit] using parseFontBDF_bytesFit parsed
  obtain ⟨each, data, -⟩ := formatFontData_values formatted
  have small : ∀ b ∈ source.charData, b < 256 := by
    rw [data]
    intro b mem
    obtain ⟨bytes, found, mem⟩ := List.mem_flatten.mp mem
    obtain ⟨c, listed, rfl⟩ := List.mem_map.mp found
    exact charBytesOf_fit fits (each c listed) b mem
  obtain ⟨text, written, readBack, -⟩ :=
    formatFontText_readInitializer formatted (lastOnce_of_nodup nodup_asciiCodePoints)
  refine ⟨small, fd, text, parsed, written, ?_⟩
  rw [readBack, Option.map_some', unsignedArray, List.map_map]
  congr 1
  conv => rhs; rw [← List.map_id source.charData]
  refine List.map_congr_left fun b mem => ?_
  have := small b mem
  simp only [Function.comp_apply, id_eq]
  omega

theorem spaceAndA_dataArray : ∃ source entry, generateFont "A" (["FONTBOUNDINGBOX 8 8 0 -1"] ++
      spaceBlock ++ letterA ++ ["ENDFONT"]) = .ok (source, entry) ∧
    (∀ b ∈ source.charData, b < 256) ∧ ∃ fd text, parseFontBDF "A"
        (["FONTBOUNDINGBOX 8 8 0 -1"] ++ spaceBlock ++ letterA ++ ["ENDFONT"]) = .ok fd ∧
      formatFontText (withAsciiCharSet fd) asciiCodePoints = .ok text ∧
      (readInitializer text.charDataBlock).map (unsignedArray 8) = some source.charData :=
  let ⟨source, entry, generated⟩ := spaceAndA_generated
  ⟨source, entry, generated, generateFont_dataArray generated⟩

end GmosFontGen.Text
