import GmosFontGen.Format

/-! `main`: the loop over the font files of the `ascii` directory, in sorted order. For
each file the source is written to the code file, then the header entry to the header
file; the header file's closing text is written once the loop is done. An exception ends
the run at the script's top level, with what was written left in the files. Finding,
sorting and reading the files is not modelled: the loop is given each file's stem and
lines. -/
namespace GmosFontGen.Main
open Python ParseChar ParseFont Format

/-- What `main` has written after the two files' opening text: the source and the header
entry of each font, whether the header file got its closing text, and the exception that
ended the run, if one did. -/
structure MainFiles where
  sources : List FontSource
  headers : List FontHeader
  closed : Bool
  raised : Option PyError
  deriving DecidableEq, Repr

/-- The loop of `main`, from what is written so far, over the fonts left. -/
def writeFonts (files : MainFiles) : List (String × List String) → MainFiles
  | [] => { files with closed := true }
  | (fontName, fileLines) :: fonts =>
    match parseFontBDF fontName fileLines with
    | .error e => { files with raised := some e }
    | .ok fontDef =>
      match formatStandardAsciiCode fontDef with
      | .error e => { files with raised := some e }
      | .ok source =>
        match formatFontHeader (withAsciiCharSet fontDef) with
        | .error e => { files with sources := files.sources ++ [source], raised := some e }
        | .ok header =>
          writeFonts { files with
            sources := files.sources ++ [source]
            headers := files.headers ++ [header] } fonts

/-- `main(params)` over the font files, each given by its stem and its lines. -/
def main (fonts : List (String × List String)) : MainFiles :=
  writeFonts ⟨[], [], false, none⟩ fonts

/-- The header entry of a definition `formatStandardAsciiCode` has named never raises. -/
theorem formatFontHeader_withAsciiCharSet (fd : FontDef) :
    ∃ header, formatFontHeader (withAsciiCharSet fd) = .ok header :=
  ⟨_, rfl⟩

/-- **Step lemma.** One pass of the loop writes both outputs of `generateFont` or stops
on its exception: it never writes a source without its header entry. -/
theorem writeFonts_cons (files : MainFiles) (font : String × List String)
    (fonts : List (String × List String)) :
    writeFonts files (font :: fonts) =
      match generateFont font.1 font.2 with
      | .error e => { files with raised := some e }
      | .ok (source, header) => writeFonts { files with
          sources := files.sources ++ [source]
          headers := files.headers ++ [header] } fonts := by
  obtain ⟨fontName, fileLines⟩ := font
  simp only [writeFonts, generateFont]
  rcases parsed : parseFontBDF fontName fileLines with e | fontDef
  · rfl
  rcases formatted : formatStandardAsciiCode fontDef with e | source
  · simp only [ok_bind, formatted]
    rfl
  obtain ⟨header, named⟩ := formatFontHeader_withAsciiCharSet fontDef
  simp only [ok_bind, formatted, named]
  rfl

/-- **Run lemma.** From files with nothing closed or raised yet, the loop writes the
outputs of a prefix of the fonts, in order, one source and one header entry each; it
closes the header file exactly when it raised nothing, which happens exactly when the
prefix is all the fonts; otherwise the next font raised what stopped it. -/
theorem writeFonts_files : ∀ (fonts : List (String × List String)) (files : MainFiles),
    files.closed = false → files.raised = none →
      ∃ sources headers, (writeFonts files fonts).sources = files.sources ++ sources ∧
        (writeFonts files fonts).headers = files.headers ++ headers ∧
        headers.length = sources.length ∧
        (fonts.take sources.length).mapM (fun font => generateFont font.1 font.2) =
          .ok (sources.zip headers) ∧
        (writeFonts files fonts).closed = (writeFonts files fonts).raised.isNone ∧
        ((writeFonts files fonts).raised = none → sources.length = fonts.length) ∧
        ∀ e, (writeFonts files fonts).raised = some e →
          ∃ font rest, fonts.drop sources.length = font :: rest ∧
            generateFont font.1 font.2 = .error e
  | [], files, _, fresh => ⟨[], [], by simp [writeFonts], by simp [writeFonts], rfl, rfl,
      by simp [writeFonts, fresh], fun _ => rfl, by simp [writeFonts, fresh]⟩
  | font :: fonts, files, unclosed, fresh => by
    rw [writeFonts_cons]
    rcases generated : generateFont font.1 font.2 with e | ⟨source, header⟩
    · exact ⟨[], [], by simp, by simp, rfl, rfl, by simp [unclosed], by simp,
        fun e' raised => ⟨font, fonts, rfl, by simpa using generated.trans (congrArg _
          (Option.some.inj raised))⟩⟩
    obtain ⟨sources, headers, wroteSources, wroteHeaders, same, converted, closed, whole,
      stopped⟩ := writeFonts_files fonts { files with
        sources := files.sources ++ [source]
        headers := files.headers ++ [header] } unclosed fresh
    refine ⟨source :: sources, header :: headers, by simp [wroteSources],
      by simp [wroteHeaders], by simp [same], ?_, closed, fun none => by simp [whole none],
      fun e raised => by simpa using stopped e raised⟩
    simp only [List.length_cons, List.take_succ_cons, List.mapM_cons, generated, ok_bind,
      converted, List.zip_cons_cons]
    rfl

/-- **What `main` leaves in its files.** For every list of font files, the code file and
the header file hold the outputs of the same fonts: the first ones, in order, each
source with its header entry as `generateFont` computes them. The header file is closed
exactly when the run raised nothing, and then every font is there; otherwise the first
font left out raised the exception that ended the run. -/
theorem main_files (fonts : List (String × List String)) :
    (main fonts).headers.length = (main fonts).sources.length ∧
      (fonts.take (main fonts).sources.length).mapM (fun font => generateFont font.1 font.2) =
        .ok ((main fonts).sources.zip (main fonts).headers) ∧
      (main fonts).closed = (main fonts).raised.isNone ∧
      ((main fonts).raised = none → (main fonts).sources.length = fonts.length) ∧
      ∀ e, (main fonts).raised = some e →
        ∃ font rest, fonts.drop (main fonts).sources.length = font :: rest ∧
          generateFont font.1 font.2 = .error e := by
  obtain ⟨sources, headers, wroteSources, wroteHeaders, same, converted, closed, whole,
    stopped⟩ := writeFonts_files fonts ⟨[], [], false, none⟩ rfl rfl
  simp only [List.nil_append] at wroteSources wroteHeaders
  simp only [main, wroteSources, wroteHeaders]
  exact ⟨same, converted, closed, whole, stopped⟩

end GmosFontGen.Main
