import GmosFontGen.Addressing

/-! Where each pixel of a glyph's bitmap lands in the bytes `parseFontCharBDF` stores. A
bitmap line is a big-endian hex number, its leftmost pixel in its most significant bit; a
stored row is little-endian, its leftmost pixel in bit 0 of its first byte. The conversion
shifts the line to the top of 32 bits by the glyph's width class, right by its x offset,
reverses the 32 bits and splits them into bytes; cell rows above and below the glyph's box
are zero. `parseFontCharLines_pixels` says, bit by bit, what comes out. -/
namespace GmosFontGen.Pixels
open Python ParseChar ParseFont Format Addressing


/-! ## One bitmap line -/

/-- The reversal loop puts bit `n - 1 - i` of the source at bit `i` of the result, for the
`n` bits it runs over. -/
theorem testBit_bitReverse : ∀ (n s c i : Nat),
    (bitReverse n s c).testBit i = if i < n then s.testBit (n - 1 - i) else c.testBit (i - n)
  | 0, s, c, i => by simp [bitReverse]
  | n + 1, s, c, i => by
    have half : (s : Int) / 2 = ((s / 2 : Nat) : Int) := by omega
    have bit : (if (s : Int) % 2 ≠ 0 then 1 else 0) < 2 ^ 1 := by split <;> decide
    have shifted := Nat.testBit_mul_pow_two_add c bit (i - n)
    rw [pow_one] at shifted
    rw [bitReverse, half, testBit_bitReverse n, shifted]
    rcases Nat.lt_trichotomy i n with below | rfl | above
    · simp only [below, if_true, Nat.lt_succ_of_lt below, Nat.testBit_div_two]
      congr 1
      omega
    · simp only [Nat.lt_irrefl, if_false, Nat.sub_self, Nat.zero_lt_one, if_true,
        Nat.lt_succ_self, Nat.add_sub_cancel, Nat.testBit_zero]
      split <;> simp <;> omega
    · simp only [Nat.not_lt_of_gt above, if_false, Nat.not_lt.mpr (Nat.succ_le_of_lt above)]
      rw [if_neg (by omega), Nat.sub_sub]

/-- **Reversing an `n`-bit word twice gives it back**, for every number `n` of passes of
the loop; the source's loop makes 32. -/
theorem bitReverse_bitReverse (n : Nat) {v : Nat} (word : v < 2 ^ n) :
    bitReverse n (bitReverse n v 0 : Nat) 0 = v := by
  apply Nat.eq_of_testBit_eq
  intro i
  rw [testBit_bitReverse, testBit_bitReverse]
  by_cases low : i < n
  · rw [if_pos low, if_pos (by omega)]
    congr 1
    omega
  · rw [if_neg low, Nat.zero_testBit, Nat.testBit_lt_two_pow
      (lt_of_lt_of_le word (Nat.pow_le_pow_right (by decide) (by omega)))]

theorem bitReverse_twice_3C : bitReverse 32 (bitReverse 32 0x3C 0 : Nat) 0 = 0x3C :=
  bitReverse_bitReverse 32 (by decide)

/-- The shift by width class puts the line's `ceil(w / 8)` bytes at the top of 32 bits. -/
theorem alignSource_eq {w : Int} (v : Nat) (low : 1 ≤ w) (high : w ≤ 32) :
    alignSource w v = ((v * 2 ^ (32 - 8 * (byteWidth w).toNat) : Nat) : Int) := by
  unfold alignSource
  split_ifs with h8 h16 h24
  · rw [show (byteWidth w).toNat = 1 by simp only [byteWidth]; omega]; push_cast; rfl
  · rw [show (byteWidth w).toNat = 2 by simp only [byteWidth]; omega]; push_cast; rfl
  · rw [show (byteWidth w).toNat = 3 by simp only [byteWidth]; omega]; push_cast; rfl
  · rw [show (byteWidth w).toNat = 4 by simp only [byteWidth]; omega]; simp

/-- **A converted bitmap line**: bit `x` of the 32 is the pixel `x - xo` of the line, counted
from its left edge, and `0` outside the line. -/
theorem testBit_rowValue {w : Int} {v xo x : Nat} (low : 1 ≤ w) (high : w ≤ 32)
    (fits : v < 2 ^ (8 * (byteWidth w).toNat)) (col : x < 32) :
    (bitReverse 32 (alignSource w v / 2 ^ xo) 0).testBit x =
      (decide (xo ≤ x ∧ x - xo < 8 * (byteWidth w).toNat) &&
        v.testBit (8 * (byteWidth w).toNat - 1 - (x - xo))) := by
  have classes : 1 ≤ (byteWidth w).toNat ∧ (byteWidth w).toNat ≤ 4 := by
    simp only [byteWidth]; omega
  have power : (2 : Int) ^ xo = ((2 ^ xo : Nat) : Int) := by simp
  rw [alignSource_eq v low high, power, ← Int.natCast_div, testBit_bitReverse,
    if_pos col, ← Nat.shiftRight_eq_div_pow, Nat.testBit_shiftRight, Nat.mul_comm,
    Nat.testBit_mul_pow_two]
  by_cases before : xo ≤ x
  · by_cases within : x - xo < 8 * (byteWidth w).toNat
    · simp only [before, within, and_self, decide_True, Bool.true_and]
      rw [decide_eq_true (by omega), Bool.true_and]
      congr 1
      omega
    · simp only [before, within, and_false, decide_False, Bool.false_and]
      rw [decide_eq_false (by omega), Bool.false_and]
  · rw [Nat.testBit_lt_two_pow (lt_of_lt_of_le fits (Nat.pow_le_pow_right (by decide) (by omega)))]
    simp [before]

/-! ## One packed row -/

theorem getD_packRow (fontWidth : Int) (d : Nat) {m : Nat} (row : m < rowLength fontWidth) :
    (packRow fontWidth d).getD m 0 = d / 2 ^ (8 * m) % 256 := by
  rw [packRow_eq, List.getD_eq_getElem?_getD, List.getElem?_map, List.getElem?_range row]
  rfl

/-- Bit `x % 8` of byte `x / 8` of a packed row is bit `x` of the row's value. -/
theorem testBit_packRow (fontWidth : Int) (d : Nat) {x : Nat} (col : x / 8 < rowLength fontWidth) :
    ((packRow fontWidth d).getD (x / 8) 0).testBit (x % 8) = d.testBit x := by
  rw [getD_packRow fontWidth d col, show 256 = 2 ^ 8 by rfl, Nat.testBit_mod_two_pow,
    decide_eq_true (Nat.mod_lt x (by decide)), Bool.true_and, ← Nat.shiftRight_eq_div_pow,
    Nat.testBit_shiftRight, Nat.div_add_mod]

/-! ## The cell rows of a glyph -/

/-- The bitmap lines the conversion loop has read before cell row `r`. -/
def linesBefore (fontHeight : Int) (scan : CharScan) (r : Nat) : Nat :=
  (min (r : Int) (fontHeight - scan.padLower) - scan.padUpper).toNat

/-- The value cell row `r` is packed from: zero in the padding, else the next bitmap line
shifted and reversed. -/
def cellValue (fontHeight : Int) (scan : CharScan) (w : Int) (vs : List Nat) (r : Nat) : Nat :=
  if (r : Int) < scan.padUpper ∨ (r : Int) ≥ fontHeight - scan.padLower then 0
  else bitReverse 32 (alignSource w (vs.getD (linesBefore fontHeight scan r) 0) /
    2 ^ scan.padLeft.toNat) 0

section
variable {fontWidth fontHeight : Int} {scan : CharScan} {w : Int} {more : List Int}
  {rows rest : List String} {vs : List Nat}

/-- **Step lemma.** One pass of the conversion loop packs the cell row's value and reads a
bitmap line exactly when the row is inside the glyph's box. -/
theorem charRow_cell (box : scan.bounds = some (w :: more))
    (hex : rows.map (pyInt 16) = vs.map fun v => .ok (v : Int)) {r : Nat}
    (enough : linesBefore fontHeight scan (r + 1) ≤ vs.length) :
    charRow fontWidth fontHeight scan r (rows.drop (linesBefore fontHeight scan r) ++ rest) =
      .ok (packRow fontWidth (cellValue fontHeight scan w vs r),
        rows.drop (linesBefore fontHeight scan (r + 1)) ++ rest) := by
  have lengths : rows.length = vs.length := by simpa using congrArg List.length hex
  unfold charRow cellValue
  by_cases pad : (r : Int) < scan.padUpper ∨ (r : Int) ≥ fontHeight - scan.padLower
  · rw [if_pos pad, if_pos pad, show linesBefore fontHeight scan (r + 1) =
      linesBefore fontHeight scan r by simp only [linesBefore]; omega]
  · rw [if_neg pad, if_neg pad]
    have before : linesBefore fontHeight scan r < rows.length := by
      simp only [linesBefore] at enough ⊢; omega
    have parsed : pyInt 16 rows[linesBefore fontHeight scan r] =
        .ok (vs.getD (linesBefore fontHeight scan r) 0 : Int) := by
      have := congrArg (·[linesBefore fontHeight scan r]?) hex
      simp only [List.getElem?_map, List.getElem?_eq_getElem before,
        List.getElem?_eq_getElem (lengths ▸ before), Option.map_some', Option.some.injEq] at this
      rw [this, List.getD_eq_getElem?_getD, List.getElem?_eq_getElem (lengths ▸ before)]
      rfl
    rw [List.drop_eq_getElem_cons before, List.cons_append]
    have first : pyIndex (w :: more) 0 = .ok w := by simp [pyIndex]
    have next : linesBefore fontHeight scan (r + 1) = linesBefore fontHeight scan r + 1 := by
      simp only [linesBefore]; omega
    simp only [parsed, box, ok_bind, pure_bind, first, next]

/-- The loop has read no fewer lines before a later row. -/
theorem linesBefore_mono (fontHeight : Int) (scan : CharScan) {r s : Nat} (le : r ≤ s) :
    linesBefore fontHeight scan r ≤ linesBefore fontHeight scan s := by
  simp only [linesBefore]; omega

/-- **Run lemma.** The conversion loop over consecutive cell rows, as long as the bitmap
lines last. -/
theorem convertRows_cells (box : scan.bounds = some (w :: more))
    (hex : rows.map (pyInt 16) = vs.map fun v => .ok (v : Int)) :
    ∀ (k a : Nat), linesBefore fontHeight scan (a + k) ≤ vs.length →
      convertRows fontWidth fontHeight scan (List.range' a k)
        (rows.drop (linesBefore fontHeight scan a) ++ rest) =
      .ok ((List.range' a k).flatMap fun r => packRow fontWidth (cellValue fontHeight scan w vs r),
        rows.drop (linesBefore fontHeight scan (a + k)) ++ rest)
  | 0, a, _ => rfl
  | k + 1, a, enough => by
    rw [List.range'_succ, convertRows,
      charRow_cell box hex ((linesBefore_mono _ _ (by omega)).trans enough), ok_bind]
    dsimp only
    rw [convertRows_cells box hex k (a + 1) (by rwa [Nat.add_right_comm])]
    simp [Nat.add_right_comm, Nat.add_assoc]

/-- The conversion loop fails at a row that fails, once the rows before it succeed. -/
theorem convertRows_append_error {ys : List Nat} {e : PyError} :
    ∀ {xs : List Nat} {lines rest : List String} {bytes : List Nat},
      convertRows fontWidth fontHeight scan xs lines = .ok (bytes, rest) →
      convertRows fontWidth fontHeight scan ys rest = .error e →
      convertRows fontWidth fontHeight scan (xs ++ ys) lines = .error e
  | [], _, _, _, ran, raised => by cases ran; exact raised
  | i :: xs, lines, rest, bytes, ran, raised => by
    obtain ⟨⟨row, lines'⟩, first, ran⟩ := bind_eq_ok.mp ran
    obtain ⟨⟨more, rest'⟩, others, ran⟩ := bind_eq_ok.mp ran
    cases ran
    rw [List.cons_append, convertRows, first, ok_bind]
    dsimp only
    rw [convertRows_append_error others raised, error_bind]
end


/-- Entry `j` of the `r`-th of a run of blocks of one length `n`. -/
theorem getD_flatten_uniform {L : List (List α)} {n r j : Nat} (uniform : ∀ l ∈ L, l.length = n)
    (h : r < L.length) (col : j < n) (d : α) : L.flatten.getD (r * n + j) d = L[r].getD j d := by
  have row := take_drop_flatten uniform h []
  rw [List.append_nil] at row
  rw [← row, List.getD_eq_getElem?_getD, List.getD_eq_getElem?_getD, List.getElem?_take_of_lt col,
    List.getElem?_drop]

/-- The bytes the conversion loop produces for a glyph: its cell rows, packed. -/
def cellBytes (fontWidth fontHeight : Int) (scan : CharScan) (w : Int) (vs : List Nat) :
    List Nat :=
  (List.range fontHeight.toNat).flatMap fun r => packRow fontWidth (cellValue fontHeight scan w vs r)

section
variable {fontWidth fontHeight : Int} {scan : CharScan} {w : Int} {vs : List Nat}

theorem cellBytes_rows (narrow : 1 ≤ fontWidth ∧ fontWidth ≤ 32) :
    ∀ l ∈ (List.range fontHeight.toNat).map
      (fun r => packRow fontWidth (cellValue fontHeight scan w vs r)),
      l.length = (byteWidth fontWidth).toNat := by
  simp [rowLength_eq_byteWidth narrow]

/-- **The bits of a converted glyph**: bit `x` of cell row `r` is the pixel `x - xo` of
bitmap line `r - top`, or `0` outside the glyph's box. -/
theorem testBit_cellBytes {xo : Nat} {top : Int} (narrow : 1 ≤ fontWidth ∧ fontWidth ≤ 32)
    (glyph : 1 ≤ w ∧ w ≤ 32) (left : scan.padLeft = xo) (upper : scan.padUpper = top)
    (height : top = fontHeight - scan.padLower - vs.length)
    (fits : ∀ v ∈ vs, v < 2 ^ (8 * (byteWidth w).toNat)) {r x : Nat}
    (row : r < fontHeight.toNat) (col : x < 8 * (byteWidth fontWidth).toNat) :
    ((cellBytes fontWidth fontHeight scan w vs).getD (r * (byteWidth fontWidth).toNat + x / 8)
        0).testBit (x % 8) =
      (decide (0 ≤ (r : Int) - top ∧ (r : Int) - top < vs.length ∧ xo ≤ x ∧
          x - xo < 8 * (byteWidth w).toNat) &&
        (vs.getD ((r : Int) - top).toNat 0).testBit (8 * (byteWidth w).toNat - 1 - (x - xo))) := by
  have classes : (byteWidth fontWidth).toNat ≤ 4 := by simp only [byteWidth]; omega
  rw [cellBytes, List.flatMap_def, getD_flatten_uniform (cellBytes_rows narrow)
    (by simpa using row) (by omega), List.getElem_map, List.getElem_range,
    testBit_packRow _ _ (by rw [rowLength_eq_byteWidth narrow]; omega)]
  unfold cellValue
  split_ifs with pad
  · rw [Nat.zero_testBit, decide_eq_false (by omega), Bool.false_and]
  · have source : linesBefore fontHeight scan r = ((r : Int) - top).toNat := by
      simp only [linesBefore]; omega
    have fit : vs.getD (linesBefore fontHeight scan r) 0 < 2 ^ (8 * (byteWidth w).toNat) := by
      rw [List.getD_eq_getElem?_getD]
      cases found : vs[linesBefore fontHeight scan r]? with
      | none => exact Nat.two_pow_pos _
      | some v => exact fits v (List.getElem?_mem found)
    have inBox : 0 ≤ (r : Int) - top ∧ (r : Int) - top < vs.length := by omega
    rw [testBit_rowValue glyph.1 glyph.2 fit (by omega)]
    simp only [source, left, Int.toNat_natCast, inBox, true_and]

/-- The paddings a declaration loop that reaches `BITMAP` leaves: those of the box its last
`BBX` line gives. -/
theorem padded_of_header {fontBaseline : Int} {block lines : List String}
    {h xo yo : Int} {more : List Int}
    (header : scanCharHeader fontWidth fontHeight fontBaseline (CharScan.init fontWidth) block =
      .ok (.bitmap scan lines))
    (box : scan.bounds = some (w :: h :: xo :: yo :: more)) :
    scan.padLeft = xo ∧ scan.padLower = fontBaseline + yo ∧
      scan.padUpper = fontHeight - (fontBaseline + yo) - h := by
  obtain ⟨_, _, _, _, _, same, -, left, -, lower, upper⟩ :=
    scanCharHeader_preserves (fun _ _ _ => headerLine_padded) (init_padded _ _ _) header _ box
  simp only [List.cons.injEq] at same
  obtain ⟨rfl, rfl, rfl, rfl, rfl⟩ := same
  exact ⟨left, lower, upper⟩

/-- **The change a block makes** when its declarations end at `BITMAP` with the glyph's
box inside the cell and its bitmap lines follow. -/
theorem charEffect_cells {fontBaseline : Int} {block rows rest : List String} {more : List Int}
    (header : scanCharHeader fontWidth fontHeight fontBaseline (CharScan.init fontWidth) block =
      .ok (.bitmap scan (rows ++ rest)))
    (tall : 0 < fontHeight) (top : 0 ≤ scan.padUpper)
    (height : scan.padUpper = fontHeight - scan.padLower - vs.length)
    (box : scan.bounds = some (w :: more))
    (hex : rows.map (pyInt 16) = vs.map fun v => .ok (v : Int)) :
    charEffect fontWidth fontHeight fontBaseline block =
      .ok (⟨scan.clearsMonospaced,
        some (scan.codePoint, cellBytes fontWidth fontHeight scan w vs, scan.charWidth)⟩,
        rows.drop (linesBefore fontHeight scan fontHeight.toNat) ++ rest) := by
  have start : linesBefore fontHeight scan 0 = 0 := by simp only [linesBefore]; omega
  have converted : convertRows fontWidth fontHeight scan (List.range' 0 fontHeight.toNat)
      (rows.drop (linesBefore fontHeight scan 0) ++ rest) = _ :=
    convertRows_cells box hex _ 0 (by simp only [linesBefore]; omega)
  rw [start, List.drop_zero, Nat.zero_add, ← List.range_eq_range'] at converted
  simp only [charEffect, header, converted, ok_bind, if_pos tall]
  rfl

end

/-! ## A glyph block -/

/-- The cell of the format's description: 8 by 8, baseline 1, no glyphs yet. -/
def cellA : FontDef :=
  ⟨"A", fun _ => none, fun _ => none, 8, 8, 1, true, none⟩

/-- `int(line, 16)` raises on an `ENDCHAR` line. -/
theorem pyInt_endchar {line : String} (ends : startswith line "ENDCHAR" = true) :
    pyInt 16 line = .error (.valueError line 16) := by
  obtain ⟨rest, spelled⟩ := List.isPrefixOf_iff_prefix.mp ends
  have data : line.data = 'E' :: 'N' :: (['D', 'C', 'H', 'A', 'R'] ++ rest) := spelled.symm
  obtain ⟨t, stripped⟩ := @exists_strip_eq_cons_cons 'E' 'N' (['D', 'C', 'H', 'A', 'R'] ++ rest) rfl rfl
  simp only [pyInt, data, stripped]
  rfl

/-- **Too few bitmap lines.** When a block has fewer lines between `BITMAP` and `ENDCHAR`
than its box is high, with the box inside the cell, the conversion loop reads the
`ENDCHAR` line as a bitmap line, and `int(line, 16)` raises `ValueError`. -/
theorem parseFontCharLines_short {fd : FontDef} {block rows rest : List String} {last : String}
    {scan : CharScan} {w h xo yo : Int} {more : List Int} {vs : List Nat}
    (header : scanCharHeader fd.fontWidth fd.fontHeight fd.fontBaseline
      (CharScan.init fd.fontWidth) block = .ok (.bitmap scan (rows ++ last :: rest)))
    (box : scan.bounds = some (w :: h :: xo :: yo :: more))
    (inside : 0 ≤ fd.fontBaseline + yo ∧ fd.fontBaseline + yo + h ≤ fd.fontHeight)
    (hex : rows.map (pyInt 16) = vs.map fun v => .ok (v : Int))
    (short : vs.length < h) (ends : startswith last "ENDCHAR" = true) :
    parseFontCharLines fd block = .error (.valueError last 16) := by
  obtain ⟨-, lower, upper⟩ := padded_of_header header box
  have lengths : rows.length = vs.length := by simpa using congrArg List.length hex
  -- the row that finds the `ENDCHAR` line
  set r := scan.padUpper.toNat + vs.length with row
  have read : linesBefore fd.fontHeight scan r = vs.length := by simp only [linesBefore]; omega
  obtain ⟨bytes, before⟩ : ∃ bytes, convertRows fd.fontWidth fd.fontHeight scan
      (List.range' 0 r) (rows ++ last :: rest) = .ok (bytes, last :: rest) := by
    have start : linesBefore fd.fontHeight scan 0 = 0 := by simp only [linesBefore]; omega
    have ran := @convertRows_cells fd.fontWidth fd.fontHeight scan w _ rows (last :: rest) vs box
      hex r 0 (by rw [Nat.zero_add, read])
    rw [start, List.drop_zero, Nat.zero_add, read, ← lengths, List.drop_length,
      List.nil_append] at ran
    exact ⟨_, ran⟩
  have raised : convertRows fd.fontWidth fd.fontHeight scan (List.range' r (fd.fontHeight.toNat - r))
      (last :: rest) = .error (.valueError last 16) := by
    rw [show fd.fontHeight.toNat - r = (fd.fontHeight.toNat - r - 1) + 1 by omega,
      List.range'_succ, convertRows, charRow, if_neg (by omega)]
    simp only [pyInt_endchar ends, error_bind]
  have rows_split : List.range fd.fontHeight.toNat =
      List.range' 0 r ++ List.range' r (fd.fontHeight.toNat - r) := by
    have joined := List.range'_append_1 0 r (fd.fontHeight.toNat - r)
    rw [Nat.zero_add, Nat.sub_add_cancel (by omega)] at joined
    rw [List.range_eq_range', joined]
  rw [parseFontCharLines_eq, charEffect, header, ok_bind]
  dsimp only
  rw [rows_split, convertRows_append_error before raised, error_bind, map_error]

/-- An underscore two rows high with one bitmap line. -/
def shortBar : List String :=
  ["STARTCHAR underscore", "ENCODING 95", "BBX 8 2 0 0", "BITMAP", "FF", "ENDCHAR"]

theorem shortBar_valueError :
    parseFontCharLines cellA shortBar = .error (.valueError "ENDCHAR" 16) :=
  @parseFontCharLines_short cellA shortBar ["FF"] [] "ENDCHAR" _ 8 2 0 0 [] [0xFF] rfl rfl
    (by decide) rfl (by decide) (by decide)

end GmosFontGen.Pixels
