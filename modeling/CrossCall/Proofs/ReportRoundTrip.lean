import CrossCall.Embedding.Report
import CrossCall.Proofs.Cutting
import CrossCall.Proofs.Lines
import CrossCall.Registration.Report

/-! The reports that are written for the assistant and cut into pieces again. A report has a
headline for every part, and the lines under it come back as one piece, as long as none of them
looks like a headline or a ruler. -/
namespace CrossCall.Assistant

open Registration (headline ruler)

/-- The lines of a code that are not blank. -/
def nonBlankLines (code : String) : List String :=
  (Text.splitAt '\n' code).filter fun line => !Text.isBlankLine line

/-- No line of the code is taken for a ruler or for a headline. -/
def Plain (isMark : String → Bool) (code : String) : Prop :=
  ∀ line ∈ Text.splitAt '\n' code, Text.hasStart line "=" = false ∧ isMark line = false

instance (isMark : String → Bool) (code : String) : Decidable (Plain isMark code) :=
  inferInstanceAs (Decidable
    (∀ line ∈ Text.splitAt '\n' code, Text.hasStart line "=" = false ∧ isMark line = false))

variable {isMark : String → Bool} {title : String} {texts : List String}

/-! ### Lines of a report -/

theorem not_mem_toDigits {c : Char} (hc : c.isDigit = false) (n : Nat) : c ∉ Nat.toDigits 10 n := by
  intro h
  rw [Nat.isDigit_of_mem_toDigits (by decide) (by decide) h] at hc
  cases hc

theorem splitAt_empty : Text.splitAt '\n' "" = [""] := Text.splitAt_of_not_mem (by simp)

theorem toList_ruler : ruler.toList = List.replicate 80 '=' := by
  unfold ruler
  rw [String.toList_ofList]

theorem splitAt_ruler : Text.splitAt '\n' ruler = [ruler] := by
  apply Text.splitAt_of_not_mem
  rw [toList_ruler]
  intro h
  exact absurd (List.eq_of_mem_replicate h) (by decide)

theorem splitAt_headline (h : '\n' ∉ title.toList) :
    (headline title).flatMap (Text.splitAt '\n') = ["", ruler] ++ title :: [ruler, ""] := by
  simp [headline, splitAt_ruler, splitAt_empty, Text.splitAt_of_not_mem h]

theorem isCode_empty : Cutting.isCode "" = false := by decide

theorem isCode_ruler : Cutting.isCode ruler = false := by
  simp [Cutting.isCode, Text.hasStart, toList_ruler, List.replicate_succ]

theorem filter_isCode_splitAt {code : String} (h : Plain isMark code) :
    (Text.splitAt '\n' code).filter Cutting.isCode = nonBlankLines code := by
  refine List.filter_congr fun line hline => ?_
  simp [Cutting.isCode, (h line hline).1]

/-- The pieces of a report are those of its parts, in the same order. -/
theorem sections_report {β : Type} {parts : List β} {title : β → String} {texts : β → List String}
    (hempty : isMark "" = false) (hruler : isMark ruler = false)
    (htitle : ∀ p ∈ parts, isMark (title p) = true ∧ '\n' ∉ (title p).toList) :
    sections isMark
        (String.intercalate "\n" (parts.flatMap fun p => headline (title p) ++ texts p)) =
      parts.flatMap fun p =>
        Cutting.pieces isMark .opened ((texts p).flatMap (Text.splitAt '\n')) := by
  have hidle : ∀ l ∈ ["", ruler], isMark l = false ∧ Cutting.isCode l = false := by
    simp [hempty, hruler, isCode_empty, isCode_ruler]
  have hlines : sections isMark
      (String.intercalate "\n" (parts.flatMap fun p => headline (title p) ++ texts p)) =
      Cutting.pieces isMark {}
      ((parts.flatMap fun p => headline (title p) ++ texts p).flatMap (Text.splitAt '\n')) := by
    cases parts with
    | nil => simp [sections, splitAt_empty, Cutting.pieces, Cutting.next_idle hempty isCode_empty]
    | cons p rest => rw [sections, Text.splitAt_intercalate (by simp [headline])]; rfl
  have hbodies :
      ((parts.flatMap fun p => headline (title p) ++ texts p).flatMap (Text.splitAt '\n')) =
      parts.flatMap fun p => ["", ruler] ++
      title p :: (ruler :: "" :: (texts p).flatMap (Text.splitAt '\n')) := by
    rw [List.flatMap_assoc]
    refine List.flatMap_congr fun p hp => ?_
    rw [List.flatMap_append, splitAt_headline (htitle p hp).2]
    simp
  rw [hlines, hbodies, Cutting.pieces_report hidle fun p hp => (htitle p hp).1, Cutting.close_done]
  refine List.flatMap_congr fun p _ => ?_
  rw [Cutting.pieces, List.foldl_cons, List.foldl_cons, Cutting.next_idle hruler isCode_ruler,
    Cutting.next_idle hempty isCode_empty]
  rfl

/-! ### Lines of pieces -/

/-- Is a line kept where it stands under a headline? -/
def isKept (isMark : String → Bool) (line : String) : Bool := Cutting.isCode line && !isMark line

theorem splitAt_pieceOf {ls : List String} (h : ∀ line ∈ ls, '\n' ∉ line.toList) :
    (pieceOf ls).flatMap (Text.splitAt '\n') = ls := by
  unfold pieceOf
  split
  · simp_all
  · rename_i hne
    rw [List.flatMap_singleton, Text.splitAt_intercalate hne,
      List.flatMap_congr fun line hline => Text.splitAt_of_not_mem (h line hline),
      List.flatMap_singleton']

/-- A line goes where it belongs: to the piece that is being read, or out. -/
theorem lines_close_next (isMark : String → Bool) {c : Cutting} {line : String}
    (hstarted : c.started = true) (hcurrent : ∀ l ∈ c.current, '\n' ∉ l.toList)
    (hline : '\n' ∉ line.toList) :
    (c.next isMark line).started = true ∧ (∀ l ∈ (c.next isMark line).current, '\n' ∉ l.toList) ∧
      (c.next isMark line).close.done.flatMap (Text.splitAt '\n') =
        c.close.done.flatMap (Text.splitAt '\n') ++ [line].filter (isKept isMark) := by
  cases hmark : isMark line with
  | true =>
    rw [Cutting.next_mark hmark]
    simp [Cutting.close_done, pieceOf, isKept, hmark]
  | false =>
    cases hcode : Cutting.isCode line with
    | false =>
      rw [Cutting.next_idle hmark hcode]
      simp [hstarted, isKept, hcode]
      exact hcurrent
    | true =>
      have hnext : c.next isMark line = { c with current := c.current ++ [line] } := by
        simp [Cutting.next, hmark, hstarted, hcode]
      have hlines : ∀ l ∈ c.current ++ [line], '\n' ∉ l.toList := by
        simp only [List.mem_append, List.mem_singleton]
        rintro l (hl | rfl)
        · exact hcurrent l hl
        · exact hline
      refine ⟨hnext ▸ hstarted, hnext ▸ hlines, ?_⟩
      rw [hnext, Cutting.close_done, Cutting.close_done, List.flatMap_append, List.flatMap_append,
        splitAt_pieceOf hlines, splitAt_pieceOf hcurrent]
      simp [isKept, hmark, hcode]

/-- The pieces together have exactly the lines that are kept, in the same order. -/
theorem lines_pieces {c : Cutting} {ls : List String} (hstarted : c.started = true)
    (hcurrent : ∀ l ∈ c.current, '\n' ∉ l.toList) (hls : ∀ l ∈ ls, '\n' ∉ l.toList) :
    (Cutting.pieces isMark c ls).flatMap (Text.splitAt '\n') =
      c.close.done.flatMap (Text.splitAt '\n') ++ ls.filter (isKept isMark) := by
  induction ls generalizing c with
  | nil => simp [Cutting.pieces]
  | cons line rest ih =>
    obtain ⟨hstarted', hcurrent', hnext⟩ :=
      lines_close_next isMark hstarted hcurrent (hls line List.mem_cons_self)
    have hrest := ih hstarted' hcurrent' fun l hl => hls l (List.mem_cons_of_mem line hl)
    rw [hnext, List.append_assoc, ← List.filter_append, List.singleton_append] at hrest
    exact hrest

theorem lines_pieces_opened (texts : List String) :
    (Cutting.pieces isMark .opened (texts.flatMap (Text.splitAt '\n'))).flatMap
    (Text.splitAt '\n') =
      (texts.flatMap (Text.splitAt '\n')).filter (isKept isMark) := by
  refine lines_pieces rfl (by simp [Cutting.opened]) ?_
  intro line hline
  obtain ⟨text, -, hmem⟩ := List.mem_flatMap.mp hline
  exact Text.notMem_of_mem_splitAt hmem

/-- Texts without rulers and headlines of their own make one piece of all their lines. -/
theorem pieces_plain (h : ∀ text ∈ texts, Plain isMark text) :
    Cutting.pieces isMark .opened (texts.flatMap (Text.splitAt '\n')) =
    pieceOf (texts.flatMap nonBlankLines) := by
  rw [Cutting.pieces_unmarked, List.filter_flatMap]
  · rw [List.flatMap_congr fun text htext => filter_isCode_splitAt (h text htext)]
  · intro line hline
    obtain ⟨text, htext, hmem⟩ := List.mem_flatMap.mp hline
    exact (h text htext line hmem).2

theorem nonBlankLines_empty : nonBlankLines "" = [] := by
  simp [nonBlankLines, splitAt_empty, Text.isBlankLine]

theorem mem_spaced {text : String} (h : text ∈ texts.flatMap fun text => [text, ""]) :
    text = "" ∨ text ∈ texts := by
  obtain ⟨t, ht, hmem⟩ := List.mem_flatMap.mp h
  simp only [List.mem_cons, List.not_mem_nil, or_false] at hmem
  rcases hmem with rfl | rfl
  · exact .inr ht
  · exact .inl rfl

theorem flatMap_spaced :
    (texts.flatMap fun text => [text, ""]).flatMap nonBlankLines = texts.flatMap nonBlankLines := by
  simp [List.flatMap_assoc, nonBlankLines_empty]

theorem plain_empty (h : isMark "" = false) : Plain isMark "" := by
  simp [Plain, splitAt_empty, h, Text.hasStart]

theorem flatMap_zipIdx {α β : Type} (xs : List α) (n : Nat) (f : α → List β) :
    ((xs.zipIdx n).flatMap fun p => f p.1) = xs.flatMap f := by
  rw [← List.flatMap_map, List.zipIdx_map_fst]

/-! ### Reports on calls -/

theorem isCallMark_empty : isCallMark "" = false := by decide

theorem isCallMark_ruler : isCallMark ruler = false :=
  Text.hasText_eq_false (c := '#') (by decide) (by simp [toList_ruler])

/-- The texts under the headline of a call. -/
def textsOfCall (b : Embedding.Block) : List String :=
  (if b.context.isEmpty then [] else b.context ++ [""]) ++ b.helpers.flatMap fun code => [code, ""]

theorem blockLines_eq (n : Nat) (b : Embedding.Block) :
    Embedding.blockLines n b = headline ("C中的Python API调用 #" ++ toString n) ++ textsOfCall b := by
  rw [textsOfCall, ← List.append_assoc]
  rfl

theorem callSections_eq (bs : List Embedding.Block) :
    callSections (Embedding.textReport bs) =
      bs.flatMap fun b =>
      Cutting.pieces isCallMark .opened ((textsOfCall b).flatMap (Text.splitAt '\n')) := by
  simp only [callSections, Embedding.textReport, blockLines_eq]
  rw [sections_report isCallMark_empty isCallMark_ruler, ← flatMap_zipIdx bs 1]
  intro p _
  exact ⟨Text.hasText_append _ _, by simp [not_mem_toDigits]⟩

theorem plain_of_mem_textsOfCall {b : Embedding.Block}
    (h : ∀ code ∈ b.context ++ b.helpers, Plain isCallMark code) {text : String}
    (htext : text ∈ textsOfCall b) : Plain isCallMark text := by
  by_cases hempty : text = ""
  · exact hempty ▸ plain_empty isCallMark_empty
  · refine h text ?_
    unfold textsOfCall at htext
    split at htext <;> simp_all

theorem nonBlankLines_textsOfCall (b : Embedding.Block) :
    (textsOfCall b).flatMap nonBlankLines = (b.context ++ b.helpers).flatMap nonBlankLines := by
  rw [textsOfCall, List.flatMap_append, flatMap_spaced]
  split
  · simp_all
  · simp [nonBlankLines_empty]

theorem keptLines_textsOfCall (b : Embedding.Block) :
    ((textsOfCall b).flatMap (Text.splitAt '\n')).filter (isKept isCallMark) =
      ((b.context ++ b.helpers).flatMap (Text.splitAt '\n')).filter (isKept isCallMark) := by
  have hempty : isKept isCallMark "" = false := by simp [isKept, isCode_empty]
  have hspaced : ∀ codes : List String,
      ((codes.flatMap fun code => [code, ""]).flatMap (Text.splitAt '\n')).filter
      (isKept isCallMark) =
        (codes.flatMap (Text.splitAt '\n')).filter (isKept isCallMark) := by
    intro codes
    simp [List.flatMap_assoc, List.filter_flatMap, splitAt_empty, hempty]
  rw [textsOfCall, List.flatMap_append, List.filter_append, hspaced, List.flatMap_append,
    List.filter_append]
  split
  · simp_all
  · simp [List.flatMap_append, splitAt_empty, hempty]

/-- The pieces of a report are those of its calls, each reported alone. The pieces of a call have
all lines of its code, in the same order, but for blank lines and lines that are taken for rulers or
headlines. A call without such rulers and headlines makes one piece of its lines that are not blank,
or none if all are. -/
theorem callSections_textReport (bs : List Embedding.Block) :
    callSections (Embedding.textReport bs) =
        bs.flatMap (fun b => callSections (Embedding.textReport [b])) ∧
      (∀ b : Embedding.Block,
        (callSections (Embedding.textReport [b])).flatMap (Text.splitAt '\n') =
          ((b.context ++ b.helpers).flatMap (Text.splitAt '\n')).filter fun line =>
            !Text.isBlankLine line && !Text.hasStart line "=" && !isCallMark line) ∧
      ∀ b : Embedding.Block, (∀ code ∈ b.context ++ b.helpers, Plain isCallMark code) →
        callSections (Embedding.textReport [b]) =
          pieceOf ((b.context ++ b.helpers).flatMap nonBlankLines) := by
  refine ⟨by simp [callSections_eq], fun b => ?_, fun b hplain => ?_⟩
  · rw [callSections_eq, List.flatMap_singleton, lines_pieces_opened]
    exact keptLines_textsOfCall b
  · rw [callSections_eq, List.flatMap_singleton,
      pieces_plain fun _ => plain_of_mem_textsOfCall hplain, nonBlankLines_textsOfCall]

/-- A statement over two lines with a helper, and a call without any code. -/
def brokenStatement : List Embedding.Block := [⟨["r =\n  f(x);"], ["g()\n\n\x7b\x7d"]⟩, ⟨[], []⟩]

theorem callSections_brokenStatement :
    (∀ b ∈ brokenStatement, ∀ code ∈ b.context ++ b.helpers, Plain isCallMark code) ∧
      callSections (Embedding.textReport brokenStatement) = ["r =\n  f(x);\ng()\n\x7b\x7d"] := by
  have hplain : ∀ b ∈ brokenStatement, ∀ code ∈ b.context ++ b.helpers, Plain isCallMark code := by
    decide +kernel
  refine ⟨hplain, ?_⟩
  obtain ⟨hparts, -, hpiece⟩ := callSections_textReport brokenStatement
  rw [hparts, List.flatMap_congr fun b hb => hpiece b (hplain b hb)]
  decide +kernel

/-- A call without code makes no piece, a line that starts like a ruler is left out, and a line that
looks like a headline starts another piece. -/
theorem calls_not_cut_out : callSections (Embedding.textReport [⟨[], []⟩]) = [] ∧
    callSections (Embedding.textReport [⟨["r\n= f(x);"], []⟩]) = ["r"] ∧
      nonBlankLines "r\n= f(x);" = ["r", "= f(x);"] ∧
        callSections (Embedding.textReport [⟨["a;\n// C中的Python API调用 #\nb;"], []⟩]) =
        ["a;", "b;"] := by
  simp only [callSections_eq]
  decide +kernel

/-! ### Reports on registrations -/

theorem isModuleMark_empty : isModuleMark "" = false := by decide

theorem isModuleMark_ruler : isModuleMark ruler = false := by
  have hmark (t : String) (ht : '#' ∈ t.toList) : Text.hasText ruler t = false :=
    Text.hasText_eq_false ht (by simp [toList_ruler])
  rw [isModuleMark, hmark _ (by decide), hmark _ (by decide), Bool.or_false]

theorem isModuleMark_title (n : Nat) : isModuleMark ("C中的python注册模块 #" ++ toString n) = true := by
  rw [isModuleMark, Text.hasText_append, Bool.true_or]

theorem moduleSections_eq (r : Registration.Registrations) :
    moduleSections (Registration.textReport r) = r.chains.flatMap fun c =>
      Cutting.pieces isModuleMark .opened
        ((c.codes.flatMap fun code => [code, ""]).flatMap (Text.splitAt '\n')) := by
  simp only [moduleSections, Registration.textReport, Registration.chainLines]
  rw [sections_report isModuleMark_empty isModuleMark_ruler, ← flatMap_zipIdx r.chains 1]
  intro p _
  exact ⟨isModuleMark_title p.2, by simp [not_mem_toDigits]⟩

/-- The parts of a chain, from the init function down to the functions. -/
def partsOf (c : Registration.Chain) : List Registration.Component :=
  c.initFunction :: (c.moduleDefinition.toList ++ c.methodTable.toList ++ c.functions)

theorem codes_eq (c : Registration.Chain) : c.codes = (partsOf c).map (·.code) := rfl

theorem not_mem_headline {c : Char} (hc : c ≠ '=') (ht : c ∉ title.toList) {line : String}
    (h : line ∈ headline title) :
    c ∉ line.toList := by
  simp only [headline, List.mem_cons, List.not_mem_nil, or_false] at h
  rcases h with rfl | rfl | rfl | rfl | rfl
  · simp
  · simp [toList_ruler, hc]
  · exact ht
  · simp [toList_ruler, hc]
  · simp

theorem not_mem_textReport {r : Registration.Registrations}
    (h : ∀ c ∈ r.chains, ∀ p ∈ partsOf c, '\r' ∉ p.code.toList) :
    '\r' ∉ (Registration.textReport r).toList := by
  intro hmem
  rw [Registration.textReport, String.toList_intercalate] at hmem
  obtain ⟨l, hl, hr⟩ := (Text.mem_intercalate hmem).resolve_left (by decide)
  obtain ⟨text, htext, rfl⟩ := List.mem_map.mp hl
  obtain ⟨⟨c, n⟩, hc, hline⟩ := List.mem_flatMap.mp htext
  rcases List.mem_append.mp hline with hhead | hcode
  · exact not_mem_headline (by decide) (by simp [not_mem_toDigits]) hhead hr
  · rcases mem_spaced hcode with rfl | hcode
    · simp at hr
    · obtain ⟨p, hp, rfl⟩ := List.mem_map.mp (codes_eq c ▸ hcode)
      exact h c (List.fst_mem_of_mem_zipIdx hc) p hp hr

/-- A report on chains with visible init functions comes back chain by chain, and reading it from a
file changes nothing, if no code line is taken for a ruler or a headline or holds a carriage
return. -/
theorem moduleSections_textReport (r : Registration.Registrations)
    (hinit : ∀ c ∈ r.chains, nonBlankLines c.initFunction.code ≠ [])
    (hlines : ∀ c ∈ r.chains, ∀ p ∈ partsOf c, ∀ line ∈ Text.splitAt '\n' p.code,
      Text.hasStart line "=" = false ∧ '\r' ∉ line.toList ∧ isModuleMark line = false) :
    Text.unifyNewlines (Registration.textReport r).toList = (Registration.textReport r).toList ∧
      moduleSections (Registration.textReport r) =
        r.chains.map fun c =>
        String.intercalate "\n" ((partsOf c).flatMap fun p => nonBlankLines p.code) := by
  constructor
  · refine Text.unifyNewlines_eq_self (not_mem_textReport fun c hc p hp hr => ?_)
    obtain ⟨line, hline, hmem⟩ := Text.exists_mem_splitAt hr (by decide : '\r' ≠ '\n')
    exact (hlines c hc p hp line hline).2.1 hmem
  · rw [moduleSections_eq, List.map_eq_flatMap]
    refine List.flatMap_congr fun c hc => ?_
    have hplain : ∀ text ∈ c.codes.flatMap fun code => [code, ""], Plain isModuleMark text := by
      intro text htext
      rcases mem_spaced htext with rfl | hcode
      · exact plain_empty isModuleMark_empty
      · obtain ⟨p, hp, rfl⟩ := List.mem_map.mp (codes_eq c ▸ hcode)
        exact fun line hline => ⟨(hlines c hc p hp line hline).1, (hlines c hc p hp line hline).2.2⟩
    have hvisible : (partsOf c).flatMap (fun p => nonBlankLines p.code) ≠ [] := by
      rw [partsOf, List.flatMap_cons]
      exact List.append_ne_nil_of_left_ne_nil (hinit c hc) _
    rw [pieces_plain hplain, flatMap_spaced, codes_eq, List.flatMap_map, pieceOf, if_neg hvisible]

/-- A chain with all its parts, and one that ends at its init function. -/
def wholeAndBare : Registration.Registrations where
  chains := [
    { initFunction := ⟨.initFunction, some "PyInit_a", "PyInit_a()\n\x7b\n\n\x7d", "", 0, 0, 0, 0⟩
      moduleDefinition := some ⟨.moduleDefinition, some "m", "m =\n\x7bt\x7d;", "", 0, 0, 0, 0⟩
      methodTable := some ⟨.methodTable, some "t", "t[];", "", 0, 0, 0, 0⟩
      functions := [⟨.interfaceFunction, some "f", "f()\x7b\x7d\n", "", 0, 0, 0, 0⟩] },
    { initFunction := ⟨.initFunction, some "PyInit_b", "PyInit_b();", "", 0, 0, 0, 0⟩ }]

theorem moduleSections_wholeAndBare :
    (∀ c ∈ wholeAndBare.chains, nonBlankLines c.initFunction.code ≠ []) ∧
    (∀ c ∈ wholeAndBare.chains, ∀ p ∈ partsOf c, ∀ line ∈ Text.splitAt '\n' p.code,
      Text.hasStart line "=" = false ∧ '\r' ∉ line.toList ∧ isModuleMark line = false) ∧
    moduleSections (Registration.textReport wholeAndBare) =
      ["PyInit_a()\n\x7b\n\x7d\nm =\n\x7bt\x7d;\nt[];\nf()\x7b\x7d", "PyInit_b();"] := by
  have hinit : ∀ c ∈ wholeAndBare.chains, nonBlankLines c.initFunction.code ≠ [] := by
    decide +kernel
  have hlines : ∀ c ∈ wholeAndBare.chains, ∀ p ∈ partsOf c, ∀ line ∈ Text.splitAt '\n' p.code,
      Text.hasStart line "=" = false ∧ '\r' ∉ line.toList ∧ isModuleMark line = false := by
    decide +kernel
  refine ⟨hinit, hlines, (moduleSections_textReport wholeAndBare hinit hlines).2.trans ?_⟩
  decide +kernel

end CrossCall.Assistant
