import Brasa.Argparse.Options
import Brasa.Lib.Optstring

/-!
# Brasa.Argparse.Table

The constructor of `ArgParser`: it turns the option parsers into the two tables
that `getopt_long` reads, and refuses parsers whose options collide.

**When the tables say what was declared.** `short_options` is at once the set of
the characters seen so far and the string handed to `getopt_long`, separators
included. `optionTables_faithful_iff` is the exact condition under which neither use
disturbs the other.
-/

namespace Brasa.Argparse

open Brasa.Lib

variable {T δ : Type}

/-- What a reader of C strings sees of `c_str()`. -/
def cStr (s : StdString) : StdString := Optstring.cString 0 s

/-- `has_arg` of a `struct option`. -/
inductive HasArg
  | noArgument
  | requiredArgument
deriving DecidableEq, Repr

/-- A `struct option`. Its `flag` is a null pointer throughout, its `name` in the
last entry of a table only. -/
structure LongOption where
  name : Option StdString
  hasArg : HasArg
  val : Int32
deriving DecidableEq, Repr

/-- The variables `BuildOptions` fills. -/
structure Tables where
  longOptions : List LongOption
  shortOptions : StdString
deriving DecidableEq, Repr

/-- `BuildOptions`. -/
def buildOptions (_I : ℕ) (parser : OptionParser δ) (tables : Tables) :
    EStateM.Result InvalidArgument (OptionParser δ × Tables) Unit :=
  let longOption := parser.longOption
  let shortOption := parser.shortOption
  let requireArgument := if parser.isBoolean then HasArg.noArgument else .requiredArgument
  let opt : LongOption := ⟨some (cStr longOption), requireArgument, shortOption.toInt32⟩
  -- `find` looks at the characters and at the separators alike
  if shortOption ∈ tables.shortOptions ∨ ∃ op ∈ tables.longOptions, op.name = some longOption then
    .error ⟨str "Duplicated option: -" ++ [shortOption] ++ str "/--" ++ longOption⟩ (parser, tables)
  else
    let shortOptions := tables.shortOptions ++ [shortOption]
    .ok () (parser,
      { longOptions := tables.longOptions ++ [opt]
        shortOptions := if parser.isBoolean then shortOptions else shortOptions ++ [chr ':'] })

/-- An `ArgParser`. -/
structure ArgParser (T δ : Type) where
  description : StdString
  values : List (Value T)
  parsers : List (OptionParser δ)
  footer : StdString
  longOptions : List LongOption
  shortOptions : StdString

namespace ArgParser

/-- The entry of `--help`. -/
def helpOption : LongOption := ⟨some (str "help"), .noArgument, (chr 'h').toInt32⟩

/-- The null terminator of the table. -/
def terminator : LongOption := ⟨none, .noArgument, 0⟩

/-- The constructor. -/
def create (description : StdString) (values : List (Value T)) (parsers : List (OptionParser δ))
    (footer : StdString) : Except InvalidArgument (ArgParser T δ) :=
  match forEachTuple buildOptions 0 parsers ⟨[], []⟩ with
  | .error e _ => .error e
  | .ok () (_, tables) =>
    if chr 'h' ∈ tables.shortOptions ∨ ∃ op ∈ tables.longOptions, op.name = some (str "help") then
      .error ⟨str "Option -h/--help is reserved for ArgParser"⟩
    else
      .ok
        { description := description
          values := values
          parsers := parsers
          footer := footer
          longOptions := tables.longOptions ++ [helpOption, terminator]
          shortOptions := tables.shortOptions ++ [chr 'h'] }

end ArgParser

/-! ### What a table says -/

namespace OptionParser

/-- The declaration of a short option: its character, and whether it takes an
argument. -/
def shortEntry (p : OptionParser δ) : Int8 × Bool := (p.shortOption, !p.isBoolean)

/-- The declaration of a long option. -/
def longEntry (p : OptionParser δ) : LongOption :=
  ⟨some p.longOption, if p.isBoolean then .noArgument else .requiredArgument,
   p.shortOption.toInt32⟩

/-- The entry `BuildOptions` writes. -/
def cEntry (p : OptionParser δ) : LongOption :=
  { p.longEntry with name := some (cStr p.longOption) }

/-- `q` may be declared behind `p`: it has another name, and its character is none of
those `p` adds to the string. -/
def Compatible (p q : OptionParser δ) : Prop :=
  q.shortOption ∉ Optstring.encodeEntry (chr ':') p.shortEntry ∧ cStr p.longOption ≠ q.longOption

end OptionParser

/-- Two parsers share an option, or one uses an option reserved for help. -/
def Conflict (parsers : List (OptionParser δ)) : Prop :=
  ¬(parsers.map OptionParser.shortOption).Nodup ∨ ¬(parsers.map OptionParser.longOption).Nodup ∨
    chr 'h' ∈ parsers.map OptionParser.shortOption ∨
    str "help" ∈ parsers.map OptionParser.longOption

instance (parsers : List (OptionParser δ)) : Decidable (Conflict parsers) :=
  inferInstanceAs (Decidable (_ ∨ _))

/-! ### What `BuildOptions` builds -/

/-- The check of `BuildOptions` lets the parser pass. -/
def Free (p : OptionParser δ) (tables : Tables) : Prop :=
  p.shortOption ∉ tables.shortOptions ∧ ∀ op ∈ tables.longOptions, op.name ≠ some p.longOption

/-- The tables with one more entry. -/
def Tables.add (tables : Tables) (p : OptionParser δ) : Tables :=
  { longOptions := tables.longOptions ++ [p.cEntry]
    shortOptions := tables.shortOptions ++ Optstring.encodeEntry (chr ':') p.shortEntry }

theorem buildOptions_free {p : OptionParser δ} {tables : Tables} (h : Free p tables) (I : ℕ) :
    buildOptions I p tables = .ok () (p, tables.add p) := by
  have hcheck : ¬(p.shortOption ∈ tables.shortOptions ∨
      ∃ op ∈ tables.longOptions, op.name = some p.longOption) := by
    rintro (hshort | ⟨op, hop, hname⟩)
    · exact h.1 hshort
    · exact h.2 op hop hname
  rw [buildOptions, if_neg hcheck]
  cases hp : p.isBoolean with
  | true => simp [Tables.add, OptionParser.cEntry, OptionParser.longEntry,
      OptionParser.shortEntry, Optstring.encodeEntry, hp]
  | false => simp [Tables.add, OptionParser.cEntry, OptionParser.longEntry,
      OptionParser.shortEntry, Optstring.encodeEntry, hp]

theorem buildOptions_not_free {p : OptionParser δ} {tables : Tables} (h : ¬Free p tables) (I : ℕ) :
    ∃ e, buildOptions I p tables = .error e (p, tables) := by
  have hcheck : p.shortOption ∈ tables.shortOptions ∨
      ∃ op ∈ tables.longOptions, op.name = some p.longOption := by
    by_contra hno
    exact h ⟨fun hshort => hno (.inl hshort), fun op hop hname => hno (.inr ⟨op, hop, hname⟩)⟩
  rw [buildOptions, if_pos hcheck]
  exact ⟨_, rfl⟩

theorem free_add {p q : OptionParser δ} {tables : Tables} :
    Free q (tables.add p) ↔ Free q tables ∧ p.Compatible q := by
  simp only [Free, Tables.add, OptionParser.Compatible, OptionParser.cEntry, List.mem_append,
    not_or, List.mem_singleton, or_imp, forall_and, forall_eq, ne_eq, Option.some.injEq]
  tauto

/-- Each parser is free in the tables and compatible with the parsers before it. -/
def Accepted (tables : Tables) (ps : List (OptionParser δ)) : Prop :=
  (∀ q ∈ ps, Free q tables) ∧ ps.Pairwise OptionParser.Compatible

theorem accepted_cons {p : OptionParser δ} {ps : List (OptionParser δ)} {tables : Tables} :
    Accepted tables (p :: ps) ↔ Free p tables ∧ Accepted (tables.add p) ps := by
  simp only [Accepted, List.forall_mem_cons, List.pairwise_cons, free_add]
  constructor
  · rintro ⟨⟨hp, hfree⟩, hcompat, hps⟩
    exact ⟨hp, fun q hq => ⟨hfree q hq, hcompat q hq⟩, hps⟩
  · rintro ⟨hp, hfree, hps⟩
    exact ⟨⟨hp, fun q hq => (hfree q hq).1⟩, fun q hq => (hfree q hq).2, hps⟩

theorem forEachTuple_accepted {ps : List (OptionParser δ)} {tables : Tables}
    (h : Accepted tables ps) (I : ℕ) :
    forEachTuple buildOptions I ps tables = .ok () (ps, ps.foldl Tables.add tables) := by
  induction ps generalizing I tables with
  | nil => rfl
  | cons p ps ih =>
    obtain ⟨hfree, hrest⟩ := accepted_cons.mp h
    rw [forEachTuple, buildOptions_free hfree]
    simp only [ih hrest (I + 1)]
    rfl

theorem forEachTuple_not_accepted {ps : List (OptionParser δ)} {tables : Tables}
    (h : ¬Accepted tables ps) (I : ℕ) :
    ∃ e r, forEachTuple buildOptions I ps tables = .error e r := by
  induction ps generalizing I tables with
  | nil => exact absurd ⟨nofun, .nil⟩ h
  | cons p ps ih =>
    rw [forEachTuple]
    by_cases hfree : Free p tables
    · rw [buildOptions_free hfree]
      obtain ⟨e, r, hrun⟩ := ih (fun hrest => h (accepted_cons.mpr ⟨hfree, hrest⟩)) (I + 1)
      simp only [hrun]
      exact ⟨e, _, rfl⟩
    · obtain ⟨e, herr⟩ := buildOptions_not_free hfree I
      rw [herr]
      exact ⟨e, _, rfl⟩

theorem foldl_add (ps : List (OptionParser δ)) (tables : Tables) :
    ps.foldl Tables.add tables =
      { longOptions := tables.longOptions ++ ps.map OptionParser.cEntry
        shortOptions := tables.shortOptions ++
          Optstring.encode (chr ':') (ps.map OptionParser.shortEntry) } := by
  induction ps generalizing tables with
  | nil => simp [Optstring.encode]
  | cons p ps ih =>
    rw [List.foldl_cons, ih, List.map_cons, List.map_cons, Optstring.encode_cons]
    simp [Tables.add]

/-! ### What the constructor builds -/

/-- The constructor lets the parsers pass. -/
def Constructs (ps : List (OptionParser δ)) : Prop :=
  ps.Pairwise OptionParser.Compatible ∧ chr 'h' ∉ ps.map OptionParser.shortOption ∧
    str "help" ∉ ps.map (cStr ∘ OptionParser.longOption)

theorem accepted_start {ps : List (OptionParser δ)} :
    Accepted ⟨[], []⟩ ps ↔ ps.Pairwise OptionParser.Compatible := by
  simp [Accepted, Free]

/-- The check for `-h` is not confused by the separators. -/
theorem mem_h_iff {ps : List (OptionParser δ)} :
    chr 'h' ∈ Optstring.encode (chr ':') (ps.map OptionParser.shortEntry) ↔
      chr 'h' ∈ ps.map OptionParser.shortOption := by
  rw [Optstring.mem_encode, List.mem_map]
  constructor
  · rintro (⟨e, he, heq⟩ | ⟨heq, -⟩)
    · obtain ⟨p, hp, rfl⟩ := List.mem_map.mp he
      exact ⟨p, hp, heq⟩
    · exact absurd heq (by decide)
  · rintro ⟨p, hp, heq⟩
    exact .inl ⟨_, List.mem_map_of_mem hp, heq⟩

theorem help_iff {ps : List (OptionParser δ)} :
    (∃ op ∈ ps.map OptionParser.cEntry, op.name = some (str "help")) ↔
      str "help" ∈ ps.map (cStr ∘ OptionParser.longOption) := by
  simp [OptionParser.cEntry]

namespace ArgParser

variable {description footer : StdString} {values : List (Value T)} {ps : List (OptionParser δ)}

theorem create_constructs (h : Constructs ps) :
    create description values ps footer = .ok
      { description := description
        values := values
        parsers := ps
        footer := footer
        longOptions := ps.map OptionParser.cEntry ++ [helpOption, terminator]
        shortOptions :=
          Optstring.encode (chr ':') (ps.map OptionParser.shortEntry) ++ [chr 'h'] } := by
  obtain ⟨hcompat, hshort, hlong⟩ := h
  rw [create, forEachTuple_accepted (accepted_start.mpr hcompat), foldl_add]
  simp only [List.nil_append, mem_h_iff, help_iff]
  rw [if_neg (not_or.mpr ⟨hshort, hlong⟩)]

theorem create_not_constructs (h : ¬Constructs ps) :
    ∃ e, create description values ps footer = .error e := by
  rw [create]
  by_cases hcompat : ps.Pairwise OptionParser.Compatible
  · rw [forEachTuple_accepted (accepted_start.mpr hcompat), foldl_add]
    simp only [List.nil_append, mem_h_iff, help_iff]
    rw [if_pos (by by_contra hno; exact h ⟨hcompat, not_or.mp hno⟩)]
    exact ⟨_, rfl⟩
  · obtain ⟨e, r, hrun⟩ :=
      forEachTuple_not_accepted (fun hacc => hcompat (accepted_start.mp hacc)) 0
    rw [hrun]
    exact ⟨e, rfl⟩

theorem create_throws_iff :
    (∃ e, create description values ps footer = .error e) ↔ ¬Constructs ps := by
  refine ⟨?_, create_not_constructs⟩
  rintro ⟨e, he⟩ h
  rw [create_constructs h] at he
  cases he

end ArgParser

/-! ### When the tables say what was declared -/

/-- No separator of an earlier parser is taken for the character of a later one. -/
def Unconfused (ps : List (OptionParser δ)) : Prop :=
  ps.Pairwise fun p q => p.isBoolean = false → q.shortOption ≠ chr ':'

theorem cStr_eq_self {s : StdString} (h : 0 ∉ s) : cStr s = s := Optstring.cString_eq_self h

theorem map_cEntry {ps : List (OptionParser δ)} (hnul : ∀ p ∈ ps, 0 ∉ p.longOption) :
    ps.map OptionParser.cEntry = ps.map OptionParser.longEntry := by
  refine List.map_congr_left fun p hp => ?_
  rw [OptionParser.cEntry, cStr_eq_self (hnul p hp)]
  rfl

theorem compatible_iff {p q : OptionParser δ} (hnul : 0 ∉ p.longOption) :
    p.Compatible q ↔ (p.shortOption ≠ q.shortOption ∧ p.longOption ≠ q.longOption) ∧
      (p.isBoolean = false → q.shortOption ≠ chr ':') := by
  rw [OptionParser.Compatible, Optstring.encodeEntry, OptionParser.shortEntry,
    cStr_eq_self hnul]
  cases p.isBoolean with
  | true => simp [eq_comm]
  | false => simp [eq_comm]; tauto

/-- The constructor throws at every conflict, and at a `:` behind a parser that takes
an argument. -/
theorem constructs_iff {ps : List (OptionParser δ)} (hnul : ∀ p ∈ ps, 0 ∉ p.longOption) :
    Constructs ps ↔ ¬Conflict ps ∧ Unconfused ps := by
  have hpair : ps.Pairwise OptionParser.Compatible ↔
      ((ps.map OptionParser.shortOption).Nodup ∧ (ps.map OptionParser.longOption).Nodup) ∧
        Unconfused ps := by
    simp only [Unconfused, List.Nodup, List.pairwise_map, ← List.pairwise_and_iff]
    exact ⟨fun h => h.imp_of_mem fun hp _ => (compatible_iff (hnul _ hp)).mp,
      fun h => h.imp_of_mem fun hp _ => (compatible_iff (hnul _ hp)).mpr⟩
  have hnames : ps.map (cStr ∘ OptionParser.longOption) = ps.map OptionParser.longOption :=
    List.map_congr_left fun p hp => cStr_eq_self (hnul p hp)
  rw [Constructs, hpair, hnames, Conflict]
  tauto

/-- The string is read back as declared unless it is cut short, or a `:` is read as a
separator. -/
theorem decode_shortOptions_iff {ps : List (OptionParser δ)} :
    Optstring.decode (chr ':')
        (cStr (Optstring.encode (chr ':') (ps.map OptionParser.shortEntry) ++ [chr 'h']))
          = ps.map OptionParser.shortEntry ++ [(chr 'h', false)] ↔
      (∀ p ∈ ps, p.shortOption ≠ 0) ∧
        ps.IsChain fun p q => p.isBoolean = true → q.shortOption ≠ chr ':' := by
  have happend : Optstring.encode (chr ':') (ps.map OptionParser.shortEntry) ++ [chr 'h']
      = Optstring.encode (chr ':') (ps.map OptionParser.shortEntry ++ [(chr 'h', false)]) := by
    rw [Optstring.encode_append]
    rfl
  have hne : chr 'h' ≠ chr ':' := by decide
  have hnul : chr 'h' ≠ 0 := by decide
  rw [happend, cStr, Optstring.decode_cString_encode_iff (by decide), List.isChain_append]
  simp [OptionParser.shortEntry, List.isChain_map, hne, hnul, or_imp, forall_and]

/-- Neither use of the string is confused by a `:` exactly when at most the first
parser uses it. -/
theorem unconfused_and_isChain_iff {ps : List (OptionParser δ)} :
    Unconfused ps ∧ (ps.IsChain fun p q => p.isBoolean = true → q.shortOption ≠ chr ':') ↔
      ∀ p ∈ ps.tail, p.shortOption ≠ chr ':' := by
  constructor
  · rintro ⟨hpair, hchain⟩
    induction ps with
    | nil => exact nofun
    | cons p ps ih =>
      obtain ⟨hp, hpair⟩ := List.pairwise_cons.mp hpair
      cases ps with
      | nil => exact nofun
      | cons q ps =>
        rw [List.isChain_cons_cons] at hchain
        -- either use of the string rules out a `:` for one kind of predecessor
        have hq : q.shortOption ≠ chr ':' := by
          cases hbool : p.isBoolean with
          | true => exact hchain.1 hbool
          | false => exact hp q List.mem_cons_self hbool
        exact List.forall_mem_cons.mpr ⟨hq, ih hpair hchain.2⟩
  · intro h
    cases ps with
    | nil => exact ⟨.nil, .nil⟩
    | cons p ps =>
      have hpair : (p :: ps).Pairwise fun _ q => q.shortOption ≠ chr ':' :=
        List.pairwise_cons.mpr ⟨h, List.pairwise_of_forall_mem_list fun _ _ q hq => h q hq⟩
      refine ⟨?_, ?_⟩
      · rw [Unconfused]
        refine hpair.imp ?_
        intro p q hq _
        exact hq
      · exact hpair.isChain.imp fun _ _ hq _ => hq

/-- The constructor keeps its two promises: it throws exactly at a conflict, and what
it builds reads back as what was declared. -/
structure TablesFaithful (description : StdString) (values : List (Value T))
    (ps : List (OptionParser δ)) (footer : StdString) : Prop where
  throws : (∃ e, ArgParser.create description values ps footer = .error e) ↔ Conflict ps
  shortOptions : ∀ parser, ArgParser.create description values ps footer = .ok parser →
    Optstring.decode (chr ':') (cStr parser.shortOptions)
      = ps.map OptionParser.shortEntry ++ [(chr 'h', false)]
  longOptions : ∀ parser, ArgParser.create description values ps footer = .ok parser →
    parser.longOptions
      = ps.map OptionParser.longEntry ++ [ArgParser.helpOption, ArgParser.terminator]

/-- **The tables are faithful exactly when the parsers conflict anyway, or none uses
the character NUL and none but the first the character `:`.** -/
theorem optionTables_faithful_iff (description : StdString) (values : List (Value T))
    (ps : List (OptionParser δ)) (footer : StdString) (hnul : ∀ p ∈ ps, 0 ∉ p.longOption) :
    TablesFaithful description values ps footer ↔
      Conflict ps ∨
        (∀ p ∈ ps, p.shortOption ≠ 0) ∧ ∀ p ∈ ps.tail, p.shortOption ≠ chr ':' := by
  by_cases hconf : Conflict ps
  · have hthrows : ¬Constructs ps := fun h => ((constructs_iff hnul).mp h).1 hconf
    obtain ⟨e, he⟩ : ∃ e, ArgParser.create description values ps footer = .error e :=
      ArgParser.create_not_constructs hthrows
    have hno : ∀ parser, ArgParser.create description values ps footer ≠ .ok parser := by
      intro parser hok
      rw [he] at hok
      cases hok
    exact ⟨fun _ => .inl hconf, fun _ => ⟨⟨fun _ => hconf, fun _ => ⟨e, he⟩⟩,
      fun parser hok => absurd hok (hno parser), fun parser hok => absurd hok (hno parser)⟩⟩
  · rw [or_iff_right hconf, ← unconfused_and_isChain_iff]
    constructor
    · intro h
      have hcons : Constructs ps := by
        by_contra hno
        exact hconf (h.throws.mp (ArgParser.create_not_constructs hno))
      have hdecode := h.shortOptions _ (ArgParser.create_constructs hcons)
      obtain ⟨hzero, hchain⟩ := decode_shortOptions_iff.mp hdecode
      exact ⟨hzero, ((constructs_iff hnul).mp hcons).2, hchain⟩
    · rintro ⟨hzero, hunconf, hchain⟩
      have hcons : Constructs ps := (constructs_iff hnul).mpr ⟨hconf, hunconf⟩
      refine ⟨?_, ?_, ?_⟩
      · rw [ArgParser.create_throws_iff]
        exact ⟨fun h => absurd hcons h, fun h => absurd h hconf⟩
      · intro parser hok
        rw [ArgParser.create_constructs hcons, Except.ok.injEq] at hok
        rw [← hok]
        exact decode_shortOptions_iff.mpr ⟨hzero, hchain⟩
      · intro parser hok
        rw [ArgParser.create_constructs hcons, Except.ok.injEq] at hok
        rw [← hok, ← map_cEntry hnul]

/-- A flag and an option with an argument. -/
def verboseAndOutput : List (OptionParser (Value StdString)) :=
  [.boolean (.create (chr 'v') (str "verbose") (str "Verbose output")),
   .parameter .string
     (ValueParser.create .string (chr 'o') (str "output") (str "file") (str "Output file"))]

theorem optionTables_faithful_verbose :
    TablesFaithful [] ([] : List (Value StdString)) verboseAndOutput [] :=
  (optionTables_faithful_iff [] [] verboseAndOutput [] (by decide)).mpr
    (.inr ⟨by decide, by decide⟩)

/-- An option with an argument, and a flag of the character `:`. -/
def outputAndColon : List (OptionParser (Value StdString)) :=
  [.parameter .string
     (ValueParser.create .string (chr 'o') (str "output") (str "file") (str "Output file")),
   .boolean (.create (chr ':') (str "colon") (str "A flag"))]

/-- The separator of `-o` is taken for a second option `-:`. -/
theorem optionTables_not_faithful_colon :
    ¬TablesFaithful [] ([] : List (Value StdString)) outputAndColon [] := by
  intro h
  have hconf : Conflict outputAndColon := h.throws.mp ⟨_, rfl⟩
  exact absurd hconf (by decide)

end Brasa.Argparse
