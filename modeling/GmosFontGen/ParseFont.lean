import GmosFontGen.ParseChar

/-! `parseFontBDF`: a whole BDF file into a font definition. The first `FONTBOUNDINGBOX`
line sets the cell and starts a definition with no glyphs and the monospaced flag set;
each `STARTCHAR` … `ENDCHAR` block then goes to `parseFontCharBDF`, until `ENDFONT`.

Every definition the parser returns is `WellFormed`: the two dictionaries share their
keys, every glyph is a whole cell of packed rows, and a definition still marked
monospaced holds no advance width but the cell's. The glyph blocks act on the definition
through `CharEffect`s that commute when their codepoints differ, so the order of the
blocks in the file does not matter (`foldlM_parseFontCharBDF_perm`). -/
namespace GmosFontGen.ParseFont
open Python ParseChar

/-- The `FONTBOUNDINGBOX` line: the cell, the baseline as the negated y offset, and a
definition with no glyphs, marked monospaced. -/
def fontBoundingBox (fontName : String) (line : String) : Except PyError FontDef := do
  let bounds ← (split line).tail.mapM (pyInt 10)
  let fontWidth ← pyIndex bounds 0
  let fontHeight ← pyIndex bounds 1
  let fontBaseline := -(← pyIndex bounds 3)
  pure
    { fontName, charSet := fun _ => none, charWidths := fun _ => none, fontWidth, fontHeight,
      fontBaseline, fontMonospaced := true, charSetName := none }

theorem fontBoundingBox_charWidths {fontName line : String} {fd : FontDef}
    (ran : fontBoundingBox fontName line = .ok fd) (c : Int) : fd.charWidths c = none := by
  simp only [fontBoundingBox, bind_eq_ok] at ran
  obtain ⟨bounds, -, width, -, height, -, offset, -, ran⟩ := ran
  cases ran
  rfl

/-- The header loop of `parseFontBDF`, up to its first `FONTBOUNDINGBOX` line. -/
def scanFontBoundingBox (fontName : String) : List String → Except PyError (FontDef × List String)
  | [] => .error .stopIteration
  | line :: rest =>
    if startswith line "FONTBOUNDINGBOX" then (·, rest) <$> fontBoundingBox fontName line
    else scanFontBoundingBox fontName rest

/-- The glyph loop of `parseFontBDF`. `charLines` holds the block being collected, from
its `STARTCHAR` line on; it is `none` between blocks. A `STARTCHAR` line never starts
with `ENDCHAR`, so the collecting loop's test of it is left out. -/
def parseFontChars : FontDef → Option (List String) → List String → Except PyError FontDef
  | _, _, [] => .error .stopIteration
  | fd, none, line :: rest =>
    if startswith line "ENDFONT" then .ok fd
    else if startswith line "STARTCHAR" then parseFontChars fd (some [line]) rest
    else parseFontChars fd none rest
  | fd, some charLines, line :: rest =>
    if startswith line "ENDCHAR" then do
      parseFontChars (← parseFontCharBDF fd (charLines ++ [line])) none rest
    else parseFontChars fd (some (charLines ++ [line])) rest

/-- `parseFontBDF(fontName, fileName)`, from the lines `fileLines` holds once the file is
read. -/
def parseFontBDF (fontName : String) (fileLines : List String) : Except PyError FontDef := do
  let (fd, rest) ← scanFontBoundingBox fontName fileLines
  parseFontChars fd none rest

/-! ## The invariant of a parsed definition -/

/-- What every definition `parseFontBDF` returns satisfies. -/
structure WellFormed (fd : FontDef) : Prop where
  /-- `charSet` and `charWidths` have the same keys. -/
  sameKeys : ∀ c, (fd.charSet c).isSome = (fd.charWidths c).isSome
  /-- Every glyph holds a whole cell of packed rows. -/
  glyphLength : ∀ c g, fd.charSet c = some g → g.length = fd.fontHeight.toNat * rowLength fd.fontWidth
  /-- A definition still marked monospaced holds only the cell's advance width. -/
  monospaced : fd.fontMonospaced = true → ∀ c w, fd.charWidths c = some w → w = fd.fontWidth

theorem fontBoundingBox_wellFormed {fontName line : String} {fd : FontDef}
    (ran : fontBoundingBox fontName line = .ok fd) : WellFormed fd := by
  simp only [fontBoundingBox, bind_eq_ok] at ran
  obtain ⟨bounds, -, width, -, height, -, offset, -, ran⟩ := ran
  cases ran
  exact ⟨fun _ => rfl, fun _ _ none => (by cases none), fun _ _ _ none => (by cases none)⟩

/-- **Step lemma.** A glyph's change keeps a definition well formed. -/
theorem apply_wellFormed {e : CharEffect} {fd : FontDef}
    (valid : e.Valid fd.fontWidth fd.fontHeight) (wf : WellFormed fd) : WellFormed (e.apply fd) := by
  unfold CharEffect.apply
  rcases stored : e.stored with _ | ⟨codePoint, charBytes, charWidth⟩ <;> dsimp only
  · refine ⟨by simpa using wf.sameKeys, by simpa using wf.glyphLength, ?_⟩
    intro monospaced
    simp only [FontDef.clearMonospaced_fontMonospaced, Bool.and_eq_true] at monospaced
    simpa using wf.monospaced monospaced.1
  · obtain ⟨length, clears⟩ := valid _ _ _ stored
    refine ⟨?_, ?_, ?_⟩ <;> simp only [FontDef.setChar_charSet, FontDef.setChar_charWidths,
      FontDef.setChar_fontWidth, FontDef.setChar_fontHeight, FontDef.setChar_fontMonospaced,
      FontDef.clearMonospaced_charSet, FontDef.clearMonospaced_charWidths,
      FontDef.clearMonospaced_fontWidth, FontDef.clearMonospaced_fontHeight,
      FontDef.clearMonospaced_fontMonospaced]
    · intro c
      by_cases same : c = codePoint
      · simp [same]
      · simpa [same] using wf.sameKeys c
    · intro c g found
      by_cases same : c = codePoint
      · simp only [same, setItem_self, Option.some.injEq] at found
        exact found ▸ length
      · exact wf.glyphLength c g (by simpa [same] using found)
    · intro monospaced c w found
      simp only [Bool.and_eq_true, Bool.not_eq_true'] at monospaced
      by_cases same : c = codePoint
      · simp only [same, setItem_self, Option.some.injEq] at found
        subst found
        by_contra differs
        simp [clears differs] at monospaced
      · exact wf.monospaced monospaced.1 c w (by simpa [same] using found)

theorem parseFontCharBDF_wellFormed {fd fd' : FontDef} {charLines : List String}
    (wf : WellFormed fd) (ran : parseFontCharBDF fd charLines = .ok fd') : WellFormed fd' := by
  rw [parseFontCharBDF_eq] at ran
  rcases effect : charEffect fd.fontWidth fd.fontHeight fd.fontBaseline charLines with
    _ | ⟨e, rest⟩ <;> simp only [effect, map_error, map_ok] at ran
  · cases ran
  · cases ran
    exact apply_wellFormed (charEffect_stored effect).1 wf

/-- **Run lemma.** The glyph loop keeps a definition well formed. -/
theorem parseFontChars_wellFormed :
    ∀ {lines : List String} {fd fd' : FontDef} {charLines : Option (List String)},
      WellFormed fd → parseFontChars fd charLines lines = .ok fd' → WellFormed fd' := by
  intro lines
  induction lines with
  | nil => intro fd fd' charLines _ ran; simp [parseFontChars] at ran
  | cons line rest ih =>
    intro fd fd' charLines wf ran
    rcases charLines with _ | charLines <;> simp only [parseFontChars] at ran
    · split_ifs at ran
      · cases ran; exact wf
      · exact ih wf ran
      · exact ih wf ran
    · split_ifs at ran
      · simp only [bind_eq_ok] at ran
        obtain ⟨fd'', parsed, ran⟩ := ran
        exact ih (parseFontCharBDF_wellFormed wf parsed) ran
      · exact ih wf ran

theorem scanFontBoundingBox_wellFormed {fontName : String} :
    ∀ {lines rest : List String} {fd : FontDef},
      scanFontBoundingBox fontName lines = .ok (fd, rest) → WellFormed fd := by
  intro lines
  induction lines with
  | nil => intro rest fd ran; cases ran
  | cons line lines ih =>
    intro rest fd ran
    simp only [scanFontBoundingBox] at ran
    split_ifs at ran
    · rcases box : fontBoundingBox fontName line with _ | fd' <;> simp only [box, map_error, map_ok] at ran
      · cases ran
      · cases ran
        exact fontBoundingBox_wellFormed box
    · exact ih ran

/-- **Every parsed definition is well formed.** -/
theorem parseFontBDF_wellFormed {fontName : String} {fileLines : List String} {fd : FontDef}
    (ran : parseFontBDF fontName fileLines = .ok fd) : WellFormed fd := by
  simp only [parseFontBDF, bind_eq_ok] at ran
  obtain ⟨⟨fd₀, rest⟩, scanned, ran⟩ := ran
  exact parseFontChars_wellFormed (scanFontBoundingBox_wellFormed scanned) ran

/-- A space 4 pixels wide and 1 high. -/
def spaceBlock : List String :=
  ["STARTCHAR space", "ENCODING 32", "DWIDTH 4 0", "BBX 1 1 0 0", "BITMAP", "00", "ENDCHAR"]

/-- The `A` of the format's description: a box 8 wide and 6 high, one row below the
baseline. -/
def letterA : List String :=
  ["STARTCHAR A", "ENCODING 65", "DWIDTH 8 0", "BBX 8 6 0 -1", "BITMAP", "3C", "42", "42", "7E",
   "42", "42", "ENDCHAR"]

/-! ## The order of the glyph blocks -/

/-- Two glyph changes commute unless both store under one codepoint. -/
theorem apply_comm {e₁ e₂ : CharEffect}
    (distinct : ∀ c₁ b₁ w₁ c₂ b₂ w₂, e₁.stored = some (c₁, b₁, w₁) →
      e₂.stored = some (c₂, b₂, w₂) → c₁ ≠ c₂) (fd : FontDef) :
    e₂.apply (e₁.apply fd) = e₁.apply (e₂.apply fd) := by
  rcases stored₁ : e₁.stored with _ | ⟨c₁, b₁, w₁⟩ <;>
    rcases stored₂ : e₂.stored with _ | ⟨c₂, b₂, w₂⟩ <;>
    simp only [CharEffect.apply, stored₁, stored₂, FontDef.clearMonospaced_eq, FontDef.setChar] <;>
    cases fd <;> simp only [FontDef.mk.injEq, Bool.and_right_comm, true_and, and_true]
  exact ⟨setItem_comm _ (distinct _ _ _ _ _ _ stored₁ stored₂) _ _,
    setItem_comm _ (distinct _ _ _ _ _ _ stored₁ stored₂) _ _⟩

/-- The glyph blocks' changes, each computed from the cell and the block alone. -/
def charEffects (fd : FontDef) (blocks : List (List String)) : Except PyError (List CharEffect) :=
  blocks.mapM fun block => Prod.fst <$> charEffect fd.fontWidth fd.fontHeight fd.fontBaseline block

/-- Parsing glyph blocks one after another makes their changes one after another. -/
theorem foldlM_parseFontCharBDF (blocks : List (List String)) : ∀ fd : FontDef,
    blocks.foldlM parseFontCharBDF fd =
      (fun effects => effects.foldl (fun fd e => e.apply fd) fd) <$> charEffects fd blocks := by
  induction blocks with
  | nil => intro fd; rfl
  | cons block blocks ih =>
    intro fd
    simp only [List.foldlM_cons, charEffects, List.mapM_cons, parseFontCharBDF_eq, map_bind]
    rcases charEffect fd.fontWidth fd.fontHeight fd.fontBaseline block with _ | ⟨e, rest⟩
    · rfl
    · simp only [map_ok, ok_bind, ih, charEffects, CharEffect.apply_fontWidth,
        CharEffect.apply_fontHeight, CharEffect.apply_fontBaseline, map_bind]
      rcases List.mapM (fun block => Prod.fst <$> charEffect fd.fontWidth fd.fontHeight
        fd.fontBaseline block) blocks with _ | effects <;> rfl

theorem mapM_perm {f : α → Except PyError β} {l l' : List α} (perm : l.Perm l') :
    ∀ {bs : List β}, l.mapM f = .ok bs → ∃ bs', l'.mapM f = .ok bs' ∧ bs.Perm bs' := by
  induction perm with
  | nil => intro bs ran; exact ⟨bs, ran, .refl bs⟩
  | cons x _ ih =>
    intro bs ran
    simp only [List.mapM_cons, bind_eq_ok] at ran
    obtain ⟨b, first, bs₁, rest, ran⟩ := ran
    obtain ⟨bs₂, rest', perm⟩ := ih rest
    cases ran
    exact ⟨b :: bs₂, by simp only [List.mapM_cons, first, rest', ok_bind]; rfl, perm.cons b⟩
  | swap x y l =>
    intro bs ran
    simp only [List.mapM_cons, bind_eq_ok] at ran
    obtain ⟨b, first, bs₁, inner, ran⟩ := ran
    obtain ⟨a, second, bs₂, rest, inner⟩ := inner
    cases inner
    cases ran
    exact ⟨a :: b :: bs₂, by simp only [List.mapM_cons, first, second, rest, ok_bind]; rfl,
      .swap a b bs₂⟩
  | trans _ _ ih₁ ih₂ =>
    intro bs ran
    obtain ⟨bs₁, ran₁, perm₁⟩ := ih₁ ran
    obtain ⟨bs₂, ran₂, perm₂⟩ := ih₂ ran₁
    exact ⟨bs₂, ran₂, perm₁.trans perm₂⟩

theorem mem_of_mapM {f : α → Except PyError β} :
    ∀ {l : List α} {bs : List β}, l.mapM f = .ok bs → ∀ b ∈ bs, ∃ a ∈ l, f a = .ok b := by
  intro l
  induction l with
  | nil => intro bs ran; cases ran; simp
  | cons a l ih =>
    intro bs ran
    simp only [List.mapM_cons, bind_eq_ok] at ran
    obtain ⟨b, first, bs₁, rest, ran⟩ := ran
    cases ran
    intro b' mem
    rcases List.mem_cons.mp mem with rfl | mem
    · exact ⟨a, List.mem_cons_self a l, first⟩
    · obtain ⟨a', mem', found⟩ := ih rest b' mem
      exact ⟨a', List.mem_cons_of_mem a mem', found⟩

/-- **The order of the glyph blocks does not matter** when their declared codepoints are
distinct: the blocks parse in one order exactly when they parse in the other, to the same
definition. -/
theorem foldlM_parseFontCharBDF_perm {blocks blocks' : List (List String)} (fd : FontDef)
    (perm : blocks.Perm blocks') (distinct : (blocks.map (declaredCodePoint (-1))).Nodup) :
    (blocks.foldlM parseFontCharBDF fd).toOption = (blocks'.foldlM parseFontCharBDF fd).toOption := by
  rw [foldlM_parseFontCharBDF, foldlM_parseFontCharBDF]
  rcases effects : charEffects fd blocks with e | es
  · rcases effects' : charEffects fd blocks' with e' | es'
    · rfl
    · obtain ⟨es, ran, -⟩ := mapM_perm perm.symm effects'
      have ran : charEffects fd blocks = .ok es := ran
      rw [ran] at effects
      cases effects
  · obtain ⟨es', ran, perm'⟩ := mapM_perm perm effects
    have ran : charEffects fd blocks' = .ok es' := ran
    rw [ran]
    simp only [map_ok, Except.toOption, Option.some.injEq]
    refine perm'.foldl_eq' (fun x memx y memy z => ?_) fd
    by_cases same : x = y
    · rw [same]
    refine apply_comm (fun c₁ b₁ w₁ c₂ b₂ w₂ storedx storedy key => same ?_) z
    obtain ⟨bx, inx, foundx⟩ := mem_of_mapM effects x memx
    obtain ⟨by', iny, foundy⟩ := mem_of_mapM effects y memy
    rcases runx : charEffect fd.fontWidth fd.fontHeight fd.fontBaseline bx with _ | ⟨x', restx⟩ <;>
      simp only [runx, map_error, map_ok] at foundx
    · cases foundx
    rcases runy : charEffect fd.fontWidth fd.fontHeight fd.fontBaseline by' with _ | ⟨y', resty⟩ <;>
      simp only [runy, map_error, map_ok] at foundy
    · cases foundy
    cases foundx
    cases foundy
    have sameBlock : bx = by' := List.inj_on_of_nodup_map distinct inx iny
      (((charEffect_stored runx).2 _ _ _ storedx).symm.trans
        (key.trans ((charEffect_stored runy).2 _ _ _ storedy)))
    subst sameBlock
    rw [runx] at runy
    cases runy
    rfl

/-- Glyph blocks leave the cell and the baseline as they are. -/
theorem foldlM_parseFontCharBDF_cell :
    ∀ {blocks : List (List String)} {fd fd' : FontDef}, blocks.foldlM parseFontCharBDF fd = .ok fd' →
      fd'.fontWidth = fd.fontWidth ∧ fd'.fontHeight = fd.fontHeight ∧
        fd'.fontBaseline = fd.fontBaseline
  | [], _, _, ran => by cases ran; exact ⟨rfl, rfl, rfl⟩
  | block :: blocks, fd, fd', ran => by
    rw [List.foldlM_cons] at ran
    obtain ⟨fd₁, parsed, ran⟩ := bind_eq_ok.mp ran
    rw [parseFontCharBDF_eq] at parsed
    rcases effect : charEffect fd.fontWidth fd.fontHeight fd.fontBaseline block with
      _ | ⟨e, rest⟩ <;> simp only [effect, map_error, map_ok] at parsed
    · cases parsed
    cases parsed
    simpa using foldlM_parseFontCharBDF_cell ran

/-- **A glyph block's entry survives the other blocks** when the declared codepoints are
distinct: the parsed definition holds the rows and the advance width the block stores. -/
theorem foldlM_parseFontCharBDF_stored {blocks : List (List String)} {fd fd' : FontDef}
    {block rest : List String} {e : CharEffect} {c : Int} {charBytes : List Nat} {charWidth : Int}
    (distinct : (blocks.map (declaredCodePoint (-1))).Nodup) (mem : block ∈ blocks)
    (ran : blocks.foldlM parseFontCharBDF fd = .ok fd')
    (effect : charEffect fd.fontWidth fd.fontHeight fd.fontBaseline block = .ok (e, rest))
    (stored : e.stored = some (c, charBytes, charWidth)) :
    fd'.charSet c = some charBytes ∧ fd'.charWidths c = some charWidth := by
  have same := foldlM_parseFontCharBDF_perm fd
    ((List.perm_cons_erase mem).trans (List.perm_append_singleton _ _).symm) distinct
  rw [ran] at same
  have last := eq_ok_of_toOption same.symm
  rw [List.foldlM_append] at last
  obtain ⟨fd₁, others, last⟩ := bind_eq_ok.mp last
  obtain ⟨width, height, baseline⟩ := foldlM_parseFontCharBDF_cell others
  simp only [List.foldlM_cons, List.foldlM_nil, bind_pure, parseFontCharBDF_eq, width, height,
    baseline, effect, map_ok, Except.ok.injEq] at last
  subst last
  simp [CharEffect.apply, stored]

/-- **No glyph from nowhere.** A codepoint the glyph loop leaves with an advance width
had one before, or is declared by one of the blocks. -/
theorem foldlM_parseFontCharBDF_declared :
    ∀ {blocks : List (List String)} {fd fd' : FontDef},
      blocks.foldlM parseFontCharBDF fd = .ok fd' → ∀ c, (fd'.charWidths c).isSome →
        (fd.charWidths c).isSome ∨ ∃ block ∈ blocks, declaredCodePoint (-1) block = c
  | [], _, _, ran, _, found => by cases ran; exact .inl found
  | block :: blocks, fd, fd', ran, c, found => by
    rw [List.foldlM_cons] at ran
    obtain ⟨fd₁, parsed, ran⟩ := bind_eq_ok.mp ran
    rw [parseFontCharBDF_eq] at parsed
    rcases effect : charEffect fd.fontWidth fd.fontHeight fd.fontBaseline block with
      _ | ⟨e, rest⟩ <;> simp only [effect, map_error, map_ok] at parsed
    · cases parsed
    cases parsed
    rcases foldlM_parseFontCharBDF_declared ran c found with before | ⟨other, mem, declared⟩
    · unfold CharEffect.apply at before
      rcases stored : e.stored with _ | ⟨codePoint, charBytes, charWidth⟩ <;>
        simp only [stored, FontDef.setChar_charWidths, FontDef.clearMonospaced_charWidths] at before
      · exact .inl before
      by_cases same : c = codePoint
      · exact .inr ⟨block, List.mem_cons_self _ _,
          ((charEffect_stored effect).2 _ _ _ stored).symm.trans same.symm⟩
      · exact .inl (by rwa [setItem_of_ne _ same] at before)
    · exact .inr ⟨other, List.mem_cons_of_mem _ mem, declared⟩

/-! ## Glyph blocks in a file -/

/-- A glyph block as `parseFontBDF` cuts one out: a `STARTCHAR` line, lines none of which
starts with `ENDCHAR`, and an `ENDCHAR` line. -/
def IsCharBlock (block : List String) : Prop :=
  ∃ first body last, block = first :: (body ++ [last]) ∧ startswith first "STARTCHAR" = true ∧
    (∀ line ∈ body, startswith line "ENDCHAR" = false) ∧ startswith last "ENDCHAR" = true

/-- The lines of a file before its glyph blocks: lines up to a first `FONTBOUNDINGBOX`
line, then lines that neither start a glyph nor end the font. -/
def IsFontHeader (header : List String) (box : String) : Prop :=
  ∃ pre post, header = pre ++ box :: post ∧
    (∀ line ∈ pre, startswith line "FONTBOUNDINGBOX" = false) ∧
    startswith box "FONTBOUNDINGBOX" = true ∧
    ∀ line ∈ post, startswith line "STARTCHAR" = false ∧ startswith line "ENDFONT" = false

theorem startchar_not_endfont {line : String} (start : startswith line "STARTCHAR" = true) :
    startswith line "ENDFONT" = false := by
  rcases line with ⟨_ | ⟨c, cs⟩⟩
  · cases start
  · obtain ⟨rfl, -⟩ : 'S' = c ∧ _ := by simpa [startswith, List.isPrefixOf] using start
    rfl

theorem parseFontChars_quiet (fd : FontDef) (rest : List String) :
    ∀ {lines : List String}, (∀ line ∈ lines,
      startswith line "STARTCHAR" = false ∧ startswith line "ENDFONT" = false) →
    parseFontChars fd none (lines ++ rest) = parseFontChars fd none rest := by
  intro lines
  induction lines with
  | nil => intro _; rfl
  | cons line lines ih =>
    intro quiet
    simp only [List.mem_cons, forall_eq_or_imp] at quiet
    simp only [List.cons_append, parseFontChars, quiet.1.1, quiet.1.2, Bool.false_eq_true,
      ite_false]
    exact ih quiet.2

theorem parseFontChars_collect (fd : FontDef) (last : String) (rest : List String)
    (ends : startswith last "ENDCHAR" = true) :
    ∀ {body charLines : List String}, (∀ line ∈ body, startswith line "ENDCHAR" = false) →
    parseFontChars fd (some charLines) (body ++ last :: rest) =
      parseFontCharBDF fd (charLines ++ body ++ [last]) >>= fun fd => parseFontChars fd none rest := by
  intro body
  induction body with
  | nil => intro charLines _; simp [parseFontChars, ends]
  | cons line body ih =>
    intro charLines inner
    simp only [List.mem_cons, forall_eq_or_imp] at inner
    simp only [List.cons_append, parseFontChars, inner.1, Bool.false_eq_true, ite_false,
      List.append_eq]
    rw [ih inner.2]
    simp

theorem parseFontChars_block {fd : FontDef} {block : List String} (rest : List String)
    (wf : IsCharBlock block) :
    parseFontChars fd none (block ++ rest) =
      parseFontCharBDF fd block >>= fun fd => parseFontChars fd none rest := by
  obtain ⟨first, body, last, rfl, start, inner, ends⟩ := wf
  simp only [List.cons_append, List.append_assoc, List.singleton_append, parseFontChars,
    startchar_not_endfont start, start, Bool.false_eq_true, ite_false, ite_true, List.append_eq,
    List.nil_append]
  rw [parseFontChars_collect fd last rest ends inner]
  simp

theorem parseFontChars_blocks (rest : List String) :
    ∀ {blocks : List (List String)} (fd : FontDef), (∀ block ∈ blocks, IsCharBlock block) →
    parseFontChars fd none (blocks.flatten ++ rest) =
      blocks.foldlM parseFontCharBDF fd >>= fun fd => parseFontChars fd none rest := by
  intro blocks
  induction blocks with
  | nil => intro fd _; rfl
  | cons block blocks ih =>
    intro fd wf
    simp only [List.mem_cons, forall_eq_or_imp] at wf
    rw [List.flatten_cons, List.append_assoc, parseFontChars_block _ wf.1, List.foldlM_cons,
      bind_assoc]
    congr 1
    funext fd
    exact ih fd wf.2

/-- The header loop stops at the first `FONTBOUNDINGBOX` line. -/
theorem scanFontBoundingBox_eq {fontName box : String} {pre : List String} (rest : List String)
    (before : ∀ line ∈ pre, startswith line "FONTBOUNDINGBOX" = false)
    (isBox : startswith box "FONTBOUNDINGBOX" = true) :
    scanFontBoundingBox fontName (pre ++ box :: rest) =
      (·, rest) <$> fontBoundingBox fontName box := by
  induction pre with
  | nil => simp [scanFontBoundingBox, isBox]
  | cons line pre ih =>
    simp only [List.mem_cons, forall_eq_or_imp] at before
    simp only [List.cons_append, scanFontBoundingBox, before.1, Bool.false_eq_true, ite_false]
    exact ih before.2

theorem scanFontBoundingBox_header {fontName box : String} {header : List String}
    (rest : List String) (wf : IsFontHeader header box) :
    ∃ post, scanFontBoundingBox fontName (header ++ rest) =
      (·, post ++ rest) <$> fontBoundingBox fontName box ∧
      ∀ line ∈ post, startswith line "STARTCHAR" = false ∧ startswith line "ENDFONT" = false := by
  obtain ⟨pre, post, rfl, before, isBox, quiet⟩ := wf
  refine ⟨post, ?_, quiet⟩
  simpa using scanFontBoundingBox_eq (post ++ rest) before isBox

/-- A file made of a header, glyph blocks and an `ENDFONT` line parses as the header's
cell with the blocks' changes made in order. -/
theorem parseFontBDF_blocks {fontName box endLine : String} {header tail : List String}
    {blocks : List (List String)} (head : IsFontHeader header box)
    (wf : ∀ block ∈ blocks, IsCharBlock block) (ends : startswith endLine "ENDFONT" = true) :
    parseFontBDF fontName (header ++ blocks.flatten ++ endLine :: tail) =
      fontBoundingBox fontName box >>= fun fd => blocks.foldlM parseFontCharBDF fd := by
  obtain ⟨post, scanned, quiet⟩ := scanFontBoundingBox_header (blocks.flatten ++ endLine :: tail) head
  rw [parseFontBDF, List.append_assoc, scanned]
  rcases fontBoundingBox fontName box with _ | fd
  · rfl
  · simp only [map_ok, ok_bind]
    rw [parseFontChars_quiet fd _ quiet, parseFontChars_blocks _ fd wf]
    rcases blocks.foldlM parseFontCharBDF fd with _ | fd' <;> simp [parseFontChars, ends]

theorem spaceBlock_isCharBlock : IsCharBlock spaceBlock :=
  ⟨_, ["ENCODING 32", "DWIDTH 4 0", "BBX 1 1 0 0", "BITMAP", "00"], _, rfl, by decide, by decide,
    by decide⟩

theorem letterA_isCharBlock : IsCharBlock letterA :=
  ⟨_, ["ENCODING 65", "DWIDTH 8 0", "BBX 8 6 0 -1", "BITMAP", "3C", "42", "42", "7E", "42", "42"],
    _, rfl, by decide, by decide, by decide⟩

end GmosFontGen.ParseFont
