import Brasa.Argparse.Report
import Brasa.Lib.Columns

/-!
# Brasa.Argparse.Usage

The usage as a format. It shows of a parser what `texts` has: the description, the names
and descriptions of the positional parameters, the options with their parameters, and the
footer. A reader of the text finds **all of them again** (`usage_readable`), so that two
parsers have the same usage only if they show the same.

What it takes is that the texts keep to their places: no line breaks but in the
description and the footer, no empty line in the description, names of positional
parameters that are not empty and have no blanks around them, and no blank in a long
option.
-/

namespace Brasa.Argparse

open Brasa.Lib

variable {T δ : Type}

/-- What the usage shows. -/
structure UsageTexts where
  description : StdString
  values : List BaseValue
  options : List (BaseParser × Option StdString)
  footer : StdString
deriving DecidableEq

def ArgParser.texts (self : ArgParser T δ) : UsageTexts :=
  ⟨self.description, self.values.map Value.base, self.parsers.map OptionParser.shown, self.footer⟩

def blank : Int8 := chr ' '

def newline : Int8 := chr '\n'

/-! ### The lines of the usage -/

/-- What the usage shows of an option in its first column. -/
def optionPreamble (o : BaseParser × Option StdString) : StdString :=
  str "-" ++ [o.1.shortOption] ++ str ", --" ++ o.1.longOption ++ match o.2 with
    | none => []
    | some name => str "  <" ++ name ++ str ">"

def valueEntry (v : BaseValue) : StdString × StdString := (v.name, v.description)

def optionEntry (o : BaseParser × Option StdString) : StdString × StdString :=
  (optionPreamble o, o.1.description)

/-- The lines of a part of the usage that has a header. -/
def sectionLines (header : StdString) (entries : List (StdString × StdString)) : List StdString :=
  if entries.isEmpty then [] else header :: entries.flatMap (Columns.entryLines blank 4 24)

def footerLines (footer : StdString) : List StdString :=
  if footer.isEmpty then [[]] else [] :: footer.splitOn newline ++ [[]]

/-- The lines of the usage; the last one, after the last line break, is empty. -/
def UsageTexts.lines (t : UsageTexts) (executable : StdString) : List StdString :=
  t.description.splitOn newline ++ [] ::
    (executable ++ t.values.flatMap (fun v => str " " ++ v.name)
      ++ if t.options.isEmpty then [] else str " <options>") :: [] ::
    (sectionLines (str "Positional parameters:") (t.values.map valueEntry) ++
      (sectionLines (str "Options:") (t.options.map optionEntry) ++ footerLines t.footer))

/-! ### Reading -/

/-- The entries under a header, if the lines begin with it, and the lines after them. -/
def readSection (header : StdString) (lines : List StdString) :
    List (StdString × StdString) × List StdString :=
  if lines.head? = some header then
    (Columns.readEntries blank 4 24 (lines.tail.takeWhile (Columns.startsBlank blank 4)),
      lines.tail.dropWhile (Columns.startsBlank blank 4))
  else ([], lines)

def readOption (e : StdString × StdString) : BaseParser × Option StdString :=
  let names := e.1.drop 6
  (⟨e.1.getD 1 0, names.takeWhile (· != blank), e.2⟩,
    match names.dropWhile (· != blank) with
    | [] => none
    | parameter => some (parameter.drop 3).dropLast)

def readLines (lines : List StdString) : UsageTexts :=
  let body := (lines.dropWhile (· != [])).drop 3
  let (values, body) := readSection (str "Positional parameters:") body
  let (options, body) := readSection (str "Options:") body
  { description := [newline].intercalate (lines.takeWhile (· != []))
    values := values.map fun e => ⟨e.1, e.2⟩
    options := options.map readOption
    footer := [newline].intercalate body.tail.dropLast }

def readUsage (text : StdString) : UsageTexts := readLines (text.splitOn newline)

/-- Texts that keep to their places; the name of a positional parameter is not empty. -/
structure UsageTexts.Legible (t : UsageTexts) : Prop where
  description : [] ∉ t.description.splitOn newline
  values : ∀ v ∈ t.values,
    Columns.Legible blank v.name ∧ newline ∉ v.name ∧ newline ∉ v.description
  options : ∀ o ∈ t.options, o.1.shortOption ≠ newline ∧ blank ∉ o.1.longOption ∧
    newline ∉ o.1.longOption ∧ newline ∉ o.2.getD [] ∧ newline ∉ o.1.description

/-! ### One entry -/

theorem newline_ne_blank : newline ≠ blank := by decide

theorem newline_not_mem_replicate (n : ℕ) : newline ∉ List.replicate n blank :=
  fun h => newline_ne_blank (List.eq_of_mem_replicate h)

theorem splitOn_line {line : StdString} (h : newline ∉ line) (rest : StdString) :
    (line ++ str "\n" ++ rest).splitOn newline = line :: rest.splitOn newline := by
  rw [List.append_assoc]
  exact List.splitOn_append_cons_self_of_not_mem h rest

/-- The text of an entry, as lines. -/
theorem buildUsageLine_splitOn {e : StdString × StdString} (hleft : newline ∉ e.1)
    (hright : newline ∉ e.2) (rest : StdString) :
    (buildUsageLine e.1 e.2 ++ rest).splitOn newline
      = Columns.entryLines blank 4 24 e ++ rest.splitOn newline := by
  have hindent : str "    " = List.replicate 4 blank := rfl
  have hblank := newline_not_mem_replicate
  rw [buildUsageLine, Columns.entryLines]
  by_cases hshort : e.1.length < 24
  · rw [if_pos hshort, if_pos hshort, hindent, splitOn_line]
    · rfl
    · simp only [List.mem_append, not_or]
      exact ⟨⟨hblank 4, hleft, hblank _⟩, hright⟩
  · have htext : List.replicate 4 blank ++ (e.1 ++ str "\n")
        ++ (List.replicate (24 + (List.replicate 4 blank).length) (chr ' ') ++ e.2)
        ++ str "\n" ++ rest
        = List.replicate 4 blank ++ e.1 ++ str "\n"
          ++ (List.replicate (24 + 4) blank ++ e.2 ++ str "\n" ++ rest) := by
      simp only [List.append_assoc, List.length_replicate]
      rfl
    rw [if_neg hshort, if_neg hshort, hindent, htext, splitOn_line, splitOn_line]
    · rfl
    · simp only [List.mem_append, not_or]
      exact ⟨hblank _, hright⟩
    · simp only [List.mem_append, not_or]
      exact ⟨hblank 4, hleft⟩

/-! ### The text is these lines -/

/-- A part of the usage whose header comes before the first element. -/
theorem accumulateConst_header {α : Type} {f : ℕ → α → StdString} {header : StdString}
    {g : α → StdString} (hf : ∀ I x, f I x = (if I = 0 then header else []) ++ g x) (xs : List α) :
    accumulateConst (· ++ ·) f 0 [] xs = (if xs.isEmpty then [] else header) ++ xs.flatMap g := by
  have hrest (I : ℕ) (b : StdString) (xs : List α) :
      accumulateConst (· ++ ·) f (I + 1) b xs = b ++ xs.flatMap g := by
    induction xs generalizing I b with
    | nil => exact (List.append_nil b).symm
    | cons x xs ih =>
      rw [accumulateConst, ih, hf, if_neg (Nat.succ_ne_zero I), List.nil_append,
        List.flatMap_cons, List.append_assoc]
  cases xs with
  | nil => rfl
  | cons x xs =>
    rw [accumulateConst, hrest, hf, if_pos rfl, List.nil_append, List.flatMap_cons,
      List.append_assoc]
    rfl

theorem flatMap_buildUsageLine_splitOn {entries : List (StdString × StdString)}
    (h : ∀ e ∈ entries, newline ∉ e.1 ∧ newline ∉ e.2) (rest : StdString) :
    (entries.flatMap (fun e => buildUsageLine e.1 e.2) ++ rest).splitOn newline
      = entries.flatMap (Columns.entryLines blank 4 24) ++ rest.splitOn newline := by
  induction entries with
  | nil => rfl
  | cons e entries ih =>
    obtain ⟨he, hentries⟩ := List.forall_mem_cons.mp h
    rw [List.flatMap_cons, List.append_assoc, buildUsageLine_splitOn he.1 he.2, ih hentries,
      List.flatMap_cons, List.append_assoc]

/-- A part of the usage, as lines. -/
theorem section_splitOn {header : StdString} {entries : List (StdString × StdString)}
    (hheader : newline ∉ header) (h : ∀ e ∈ entries, newline ∉ e.1 ∧ newline ∉ e.2)
    (rest : StdString) :
    ((if entries.isEmpty then [] else header ++ str "\n")
        ++ entries.flatMap (fun e => buildUsageLine e.1 e.2) ++ rest).splitOn newline
      = sectionLines header entries ++ rest.splitOn newline := by
  cases entries with
  | nil => rfl
  | cons e entries =>
    rw [List.append_assoc, List.isEmpty_cons, if_neg Bool.false_ne_true, splitOn_line hheader,
      flatMap_buildUsageLine_splitOn h]
    rfl

theorem buildParserUsage_eq (I : ℕ) (p : OptionParser δ) :
    buildParserUsage I p = (if I = 0 then str "Options:" ++ str "\n" else [])
      ++ buildUsageLine (optionEntry p.shown).1 (optionEntry p.shown).2 := by
  cases p with
  | boolean p =>
    simp only [buildParserUsage, optionEntry, optionPreamble, OptionParser.shown, List.append_nil]
    rfl
  | parameter type p => rfl

theorem footer_splitOn (footer : StdString) :
    (if footer.isEmpty then [] else str "\n" ++ footer ++ str "\n").splitOn newline
      = footerLines footer := by
  rw [footerLines]
  cases footer.isEmpty with
  | true => rfl
  | false =>
    rw [if_neg Bool.false_ne_true, if_neg Bool.false_ne_true, List.append_assoc]
    have htext :
        str "\n" ++ (footer ++ str "\n") = [] ++ newline :: (footer ++ newline :: []) := rfl
    rw [htext, List.splitOn_append_cons_self, List.splitOn_append_cons_self]
    rfl

theorem optionPreamble_newline {o : BaseParser × Option StdString}
    (hshort : o.1.shortOption ≠ newline) (hlong : newline ∉ o.1.longOption)
    (hname : newline ∉ o.2.getD []) : newline ∉ optionPreamble o := by
  have hdash : newline ∉ str "-" := by decide
  have hcomma : newline ∉ str ", --" := by decide
  have hopen : newline ∉ str "  <" := by decide
  have hclose : newline ∉ str ">" := by decide
  simp only [optionPreamble, List.mem_append, List.mem_singleton, not_or]
  refine ⟨⟨⟨⟨hdash, hshort.symm⟩, hcomma⟩, hlong⟩, ?_⟩
  cases ho : o.2 with
  | none => exact List.not_mem_nil
  | some name =>
    rw [ho, Option.getD_some] at hname
    simp only [List.mem_append, not_or]
    exact ⟨⟨hopen, hname⟩, hclose⟩

section Texts

variable (self : ArgParser T δ)

theorem valuesUsage_eq : accumulateConst (· ++ ·) buildValueUsage 0 [] self.values
    = (if (self.texts.values.map valueEntry).isEmpty then []
        else str "Positional parameters:" ++ str "\n")
      ++ (self.texts.values.map valueEntry).flatMap fun e => buildUsageLine e.1 e.2 := by
  have hf : ∀ I (v : Value T), buildValueUsage I v
      = (if I = 0 then str "Positional parameters:" ++ str "\n" else [])
        ++ buildUsageLine (valueEntry v.base).1 (valueEntry v.base).2 := fun _ _ => rfl
  rw [accumulateConst_header hf]
  simp only [ArgParser.texts, List.isEmpty_map, List.flatMap_map]

theorem parsersUsage_eq : accumulateConst (· ++ ·) buildParserUsage 0 [] self.parsers
    = (if (self.texts.options.map optionEntry).isEmpty then [] else str "Options:" ++ str "\n")
      ++ (self.texts.options.map optionEntry).flatMap fun e => buildUsageLine e.1 e.2 := by
  rw [accumulateConst_header buildParserUsage_eq]
  simp only [ArgParser.texts, List.isEmpty_map, List.flatMap_map]

theorem commandLine_eq : accumulateConst (· ++ ·) buildCommandLine 0 [] self.values
    = self.texts.values.flatMap fun v => str " " ++ v.name := by
  have hf : ∀ I (v : Value T), buildCommandLine I v
      = (if I = 0 then [] else []) ++ (str " " ++ v.base.name) := fun I v => by
    rw [ite_self, List.nil_append, buildCommandLine]
  rw [accumulateConst_header hf, ite_self, List.nil_append]
  simp only [ArgParser.texts, List.flatMap_map]

end Texts

/-- **The text of the usage is its lines.** -/
theorem usage_splitOn (self : ArgParser T δ) {executable : StdString} (h : self.texts.Legible)
    (hexecutable : newline ∉ executable) :
    (self.usage executable).splitOn newline = self.texts.lines executable := by
  have hvalues : ∀ e ∈ self.texts.values.map valueEntry, newline ∉ e.1 ∧ newline ∉ e.2 := by
    intro e he
    obtain ⟨v, hv, rfl⟩ := List.mem_map.mp he
    exact (h.values v hv).2
  have hoptions : ∀ e ∈ self.texts.options.map optionEntry, newline ∉ e.1 ∧ newline ∉ e.2 := by
    intro e he
    obtain ⟨o, ho, rfl⟩ := List.mem_map.mp he
    obtain ⟨hshort, -, hlong, hname, hdescription⟩ := h.options o ho
    exact ⟨optionPreamble_newline hshort hlong hname, hdescription⟩
  have hcommand : newline ∉ executable ++ self.texts.values.flatMap (fun v => str " " ++ v.name)
      ++ if self.texts.options.isEmpty then [] else str " <options>" := by
    have hoptions : newline ∉ str " <options>" := by decide
    have hspace : newline ∉ str " " := by decide
    simp only [List.mem_append, List.mem_flatMap, not_or, not_exists, not_and]
    refine ⟨⟨hexecutable, fun v hv => ⟨hspace, (h.values v hv).2.1⟩⟩, ?_⟩
    cases self.texts.options.isEmpty with
    | true => exact List.not_mem_nil
    | false => exact hoptions
  have hempty : self.parsers.isEmpty = self.texts.options.isEmpty := List.isEmpty_map.symm
  have hbreaks (text : StdString) : str "\n\n" ++ text = newline :: ([] ++ newline :: text) := rfl
  have hnone : newline ∉ ([] : StdString) := List.not_mem_nil
  rw [UsageTexts.lines, ← footer_splitOn, ← section_splitOn (by decide) hoptions,
    ← section_splitOn (by decide) hvalues, ← List.splitOn_append_cons_self_of_not_mem hnone,
    ← List.splitOn_append_cons_self_of_not_mem hcommand,
    ← List.splitOn_append_cons_self_of_not_mem hnone, ← List.splitOn_append_cons_self]
  simp only [ArgParser.usage, valuesUsage_eq, parsersUsage_eq, commandLine_eq, hempty,
    List.append_assoc, hbreaks, List.cons_append, List.nil_append]
  rfl

theorem usage_eq_intercalate (self : ArgParser T δ) {executable : StdString}
    (h : self.texts.Legible) (hexecutable : newline ∉ executable) :
    self.usage executable = [newline].intercalate (self.texts.lines executable) := by
  rw [← usage_splitOn self h hexecutable, List.intercalate_splitOn]

/-! ### Reading the lines -/

/-- A list that goes on with an element that fails the test. -/
theorem span_append {α : Type} {p : α → Bool} {xs ys : List α} (hxs : ∀ x ∈ xs, p x = true)
    (hys : ∀ y ∈ ys.head?, p y = false) :
    (xs ++ ys).takeWhile p = xs ∧ (xs ++ ys).dropWhile p = ys := by
  rw [List.takeWhile_append_of_pos hxs, List.dropWhile_append_of_pos hxs]
  cases ys with
  | nil => exact ⟨List.append_nil xs, rfl⟩
  | cons y ys =>
    have hy : ¬p y = true := by rw [hys y rfl]; exact Bool.false_ne_true
    rw [List.takeWhile_cons_of_neg hy, List.dropWhile_cons_of_neg hy, List.append_nil]
    exact ⟨rfl, rfl⟩

theorem readSection_sectionLines {header : StdString} {entries : List (StdString × StdString)}
    (h : ∀ e ∈ entries, Columns.Legible blank e.1) {rest : List StdString}
    (hrest : ∀ line ∈ rest.head?, Columns.startsBlank blank 4 line = false ∧ line ≠ header) :
    readSection header (sectionLines header entries ++ rest) = (entries, rest) := by
  cases entries with
  | nil =>
    have hhead : rest.head? ≠ some header := fun heq => (hrest header heq).2 rfl
    rw [sectionLines, List.isEmpty_nil, if_pos rfl, List.nil_append, readSection, if_neg hhead]
  | cons e entries =>
    have hlines : ∀ line ∈ (e :: entries).flatMap (Columns.entryLines blank 4 24),
        Columns.startsBlank blank 4 line = true := by
      intro line hline
      obtain ⟨e, -, he⟩ := List.mem_flatMap.mp hline
      exact Columns.startsBlank_of_mem_entryLines he
    obtain ⟨htake, hdrop⟩ := span_append hlines fun line hline => (hrest line hline).1
    rw [sectionLines, List.isEmpty_cons, if_neg Bool.false_ne_true, List.cons_append, readSection,
      List.head?_cons, if_pos rfl, List.tail_cons, htake, hdrop,
      Columns.readEntries_flatMap (by decide) h]

/-- What follows the long option. -/
def parameterText : Option StdString → StdString
  | none => []
  | some name => str "  <" ++ name ++ str ">"

theorem optionPreamble_eq (o : BaseParser × Option StdString) : optionPreamble o
    = [chr '-', o.1.shortOption, chr ',', blank, chr '-', chr '-']
      ++ (o.1.longOption ++ parameterText o.2) := by
  rw [optionPreamble]
  simp only [List.append_assoc]
  cases o.2 <;> rfl

theorem optionPreamble_legible {o : BaseParser × Option StdString} (h : blank ∉ o.1.longOption) :
    Columns.Legible blank (optionPreamble o) := by
  have hdash : some (chr '-') ≠ some blank := by decide
  refine ⟨by rw [optionPreamble_eq]; exact List.cons_ne_nil _ _, hdash, ?_⟩
  rw [optionPreamble_eq, List.getLast?_append, List.getLast?_append]
  cases o.2 with
  | none =>
    rw [parameterText, List.getLast?_nil, Option.none_or]
    cases hlast : o.1.longOption.getLast? with
    | none => exact hdash
    | some c =>
      rw [Option.some_or]
      rintro ⟨rfl⟩
      exact h (List.mem_of_getLast? hlast)
  | some name =>
    have hclose : some (chr '>') ≠ some blank := by decide
    rw [parameterText, List.getLast?_append]
    exact hclose

theorem readOption_optionEntry {o : BaseParser × Option StdString} (h : blank ∉ o.1.longOption) :
    readOption (optionEntry o) = o := by
  have hlong : ∀ c ∈ o.1.longOption, (c != blank) = true := fun c hc =>
    bne_iff_ne.mpr fun heq => h (heq ▸ hc)
  have hparameter : ∀ c ∈ (parameterText o.2).head?, (c != blank) = false := by
    cases o.2 with
    | none => nofun
    | some name =>
      rintro c ⟨rfl⟩
      rfl
  obtain ⟨htake, hdrop⟩ := span_append hlong hparameter
  have hnames : (optionPreamble o).drop 6 = o.1.longOption ++ parameterText o.2 := by
    rw [optionPreamble_eq]
    rfl
  have hshort : (optionPreamble o).getD 1 0 = o.1.shortOption := by
    rw [optionPreamble_eq]
    rfl
  rw [readOption, optionEntry]
  simp only [hnames, htake, hdrop, hshort]
  obtain ⟨⟨short, long, description⟩, name⟩ := o
  cases name with
  | none => rfl
  | some name =>
    have hname : ((str "  <" ++ name ++ str ">").drop 3).dropLast = name := by
      rw [List.append_assoc]
      exact List.dropLast_concat
    exact congrArg (fun n => (BaseParser.mk short long description, some n)) hname

theorem footer_lines (footer : StdString) :
    [newline].intercalate (footerLines footer).tail.dropLast = footer := by
  rw [footerLines]
  cases footer with
  | nil => rfl
  | cons c footer =>
    rw [List.isEmpty_cons, if_neg Bool.false_ne_true, List.cons_append, List.tail_cons,
      List.dropLast_concat, List.intercalate_splitOn]

theorem readLines_lines {t : UsageTexts} (h : t.Legible) (executable : StdString) :
    readLines (t.lines executable) = t := by
  have hspan (rest : List StdString) :
      (t.description.splitOn newline ++ [] :: rest).takeWhile (· != [])
          = t.description.splitOn newline ∧
        (t.description.splitOn newline ++ [] :: rest).dropWhile (· != []) = [] :: rest := by
    refine span_append (fun line hline => bne_iff_ne.mpr fun heq => h.description (heq ▸ hline)) ?_
    rintro line ⟨rfl⟩
    rfl
  have hvalues : ∀ e ∈ t.values.map valueEntry, Columns.Legible blank e.1 := by
    intro e he
    obtain ⟨v, hv, rfl⟩ := List.mem_map.mp he
    exact (h.values v hv).1
  have hoptions : ∀ e ∈ t.options.map optionEntry, Columns.Legible blank e.1 := by
    intro e he
    obtain ⟨o, ho, rfl⟩ := List.mem_map.mp he
    exact optionPreamble_legible (h.options o ho).2.1
  -- the lines after a part begin with another header or are empty
  have hfooter : ∀ line ∈ (footerLines t.footer).head?,
      Columns.startsBlank blank 4 line = false ∧ line ≠ str "Options:" := by
    rw [footerLines]
    cases t.footer.isEmpty with
    | true | false =>
      rintro line ⟨rfl⟩
      exact ⟨rfl, (List.cons_ne_nil _ _).symm⟩
  have hafter : ∀ line ∈ (sectionLines (str "Options:") (t.options.map optionEntry)
        ++ footerLines t.footer).head?,
      Columns.startsBlank blank 4 line = false ∧ line ≠ str "Positional parameters:" := by
    rw [sectionLines, footerLines]
    cases (t.options.map optionEntry).isEmpty with
    | true =>
      cases t.footer.isEmpty with
      | true | false =>
        rintro line ⟨rfl⟩
        exact ⟨rfl, (List.cons_ne_nil _ _).symm⟩
    | false =>
      rintro line ⟨rfl⟩
      exact ⟨rfl, by decide⟩
  have hback : (t.options.map optionEntry).map readOption = t.options := by
    rw [List.map_map]
    exact (List.map_congr_left fun o ho => readOption_optionEntry (h.options o ho).2.1).trans
      (List.map_id _)
  have hnames : (t.values.map valueEntry).map (fun e => (⟨e.1, e.2⟩ : BaseValue)) = t.values := by
    rw [List.map_map]
    exact List.map_id _
  rw [readLines, UsageTexts.lines]
  simp only [(hspan _).1, (hspan _).2, List.drop_succ_cons, List.drop_zero,
    readSection_sectionLines hvalues hafter, readSection_sectionLines hoptions hfooter,
    footer_lines, List.intercalate_splitOn, hback, hnames]

/-- **The usage can be read back.** If its texts are legible, a reader finds in it what it
shows; so two such parsers have the same usage if and only if they show the same. -/
theorem usage_readable {executable : StdString} (hexecutable : newline ∉ executable) :
    (∀ self : ArgParser T δ, self.texts.Legible →
      readUsage (self.usage executable) = self.texts) ∧
    ∀ p q : ArgParser T δ, p.texts.Legible → q.texts.Legible →
      (p.usage executable = q.usage executable ↔ p.texts = q.texts) := by
  have hread : ∀ self : ArgParser T δ, self.texts.Legible →
      readUsage (self.usage executable) = self.texts := by
    intro self h
    rw [readUsage, usage_splitOn self h hexecutable, readLines_lines h]
  refine ⟨hread, fun p q hp hq => ⟨fun heq => ?_, fun heq => ?_⟩⟩
  · rw [← hread p hp, heq, hread q hq]
  · rw [usage_eq_intercalate p hp hexecutable, usage_eq_intercalate q hq hexecutable, heq]

/-- A footer that has a line like those of the options. -/
def footerParser : ArgParser StdString (Value StdString) :=
  { copyParser with footer := str "Mind the order:\n    -v, --verbose comes first" }

theorem usage_readable_footer :
    readUsage (footerParser.usage (str "copy")) = footerParser.texts ∧
      footerParser.usage (str "copy") ≠ copyParser.usage (str "copy") := by
  have hfooter : footerParser.texts.Legible := ⟨by decide, by decide, by decide⟩
  have hcopy : copyParser.texts.Legible := ⟨by decide, by decide, by decide⟩
  have hname : newline ∉ str "copy" := by decide
  refine ⟨(usage_readable hname).1 footerParser hfooter, fun heq => ?_⟩
  exact absurd (((usage_readable hname).2 _ _ hfooter hcopy).mp heq) (by decide)

end Brasa.Argparse
