import Brasa.Argparse.Parse

/-!
# Brasa.Argparse.Dispatch

The option loop hands each option of the command line to its parser.

**When the loop does what the command line says.** A command line is a list of
occurrences: declared options, unknown or incomplete ones, and `--help`. The
constructor keeps the options of two parsers apart and reserves `-h`, but
`getopt_long` also returns `'?'` and -1, and a parser may use these characters.
`option_dispatch_iff` is the exact condition under which none is mistaken.
-/

namespace Brasa.Argparse

open Brasa.Lib

variable {T δ : Type}

/-- An option as it stands on the command line: the option of the parser with this
index, with its argument if it takes one; an unknown or incomplete option; or
`--help`. -/
inductive Occurrence
  | declared (parser : ℕ) (argument : StdString)
  | unknown
  | help
deriving DecidableEq, Repr

/-- What `getopt_long` returns for an occurrence. -/
def report (parsers : List (OptionParser δ)) : Occurrence → GetoptReturn
  | .declared i argument =>
    match parsers[i]? with
    | some p => ⟨p.shortOption.toInt32, if p.isBoolean then none else some argument⟩
    | none => ⟨(chr '?').toInt32, none⟩
  | .unknown => ⟨(chr '?').toInt32, none⟩
  | .help => ⟨(chr 'h').toInt32, none⟩

/-- What `getopt_long` does with a command line. -/
def commandLine (parsers : List (OptionParser δ)) (occs : List Occurrence)
    (residual : ℕ → List StdString) : Getopt :=
  ⟨occs.map (report parsers), residual⟩

/-! ### What a command line says -/

/-- The declared options before the first occurrence of another kind. -/
def declaredPrefix : List Occurrence → List (ℕ × StdString)
  | .declared i argument :: occs => (i, argument) :: declaredPrefix occs
  | _ => []

/-- The first occurrence that is not a declared option. -/
def firstOther : List Occurrence → Option Occurrence
  | .declared _ _ :: occs => firstOther occs
  | [] => none
  | occ :: _ => some occ

theorem firstOther_eq_some {occs : List Occurrence} {occ : Occurrence}
    (h : firstOther occs = some occ) : occ = .unknown ∨ occ = .help := by
  induction occs with
  | nil => cases h
  | cons other occs ih =>
    cases other with
    | declared i argument => exact ih h
    | unknown => exact .inl (Option.some.inj h).symm
    | help => exact .inr (Option.some.inj h).symm

/-- The parser with index `i` digests an option; all others stay as they are. -/
def digestAt (i : ℕ) (argument : StdString) (parsers : List (OptionParser δ)) :
    EStateM.Result InvalidArgument (List (OptionParser δ) × List DigestCall) Unit :=
  match parsers[i]? with
  | none => .ok () (parsers, [])
  | some p =>
    match p.digest argument with
    | .error e p' => .error e (parsers.set i p', [p.call i argument])
    | .ok () p' => .ok () (parsers.set i p', [p.call i argument])

/-- The parsers digest the options in their order, up to the first exception. -/
def digestAll : List (ℕ × StdString) → List (OptionParser δ) →
    EStateM.Result InvalidArgument (List (OptionParser δ) × List DigestCall) Unit
  | [], parsers => .ok () (parsers, [])
  | (i, argument) :: options, parsers =>
    match digestAt i argument parsers with
    | .error e r => .error e r
    | .ok () (parsers, calls) =>
      match digestAll options parsers with
      | .error e (parsers, more) => .error e (parsers, calls ++ more)
      | .ok () (parsers, more) => .ok () (parsers, calls ++ more)

/-- No digest of a declared option throws. -/
def DigestsReturn (parsers : List (OptionParser δ)) (occs : List Occurrence) : Prop :=
  ∃ r, digestAll (declaredPrefix occs) parsers = .ok () r

/-- `parse` does what the command line says: each declared option is digested in turn by
its own parser; the first occurrence of another kind ends the loop, as does the first
exception; and where there is neither, the positional phase follows. -/
structure Dispatched (argParser : ArgParser T δ) (occs : List Occurrence)
    (residual : ℕ → List StdString) (out : ParseResult × Run T δ) : Prop where
  parsers : out.2.parser.parsers = (leaves (digestAll (declaredPrefix occs) argParser.parsers)).1
  digests : out.2.digests = (leaves (digestAll (declaredPrefix occs) argParser.parsers)).2
  help : out.1 = .help ↔ DigestsReturn argParser.parsers occs ∧ firstOther occs = some .help
  error : ¬DigestsReturn argParser.parsers occs ∨ firstOther occs = some .unknown →
    out.1 = .error ∧ out.2.parser.values = argParser.values
  positional : DigestsReturn argParser.parsers occs → firstOther occs = none →
    out.1 = positionalResult argParser.values (residual (occs.length + 1)) ∧
      out.2.parser.values = positionalValues argParser.values (residual (occs.length + 1))

/-! ### The options of a parser stay the same -/

theorem digest_shortEntry (p : OptionParser δ) (argument : StdString) :
    (leaves (p.digest argument)).shortEntry = p.shortEntry := by
  cases p with
  | boolean p => rfl
  | parameter type p =>
    rw [OptionParser.digest, BaseParameterParser.digest]
    by_cases hcheck : p.checkerFunction argument = true
    · rw [if_pos hcheck]
      cases type.digest argument p.digester <;> rfl
    · rw [if_neg hcheck]
      rfl

theorem map_shortEntry_set {ps : List (OptionParser δ)} {i : ℕ} {p p' : OptionParser δ}
    (hp : ps[i]? = some p) (h : p'.shortEntry = p.shortEntry) :
    (ps.set i p').map OptionParser.shortEntry = ps.map OptionParser.shortEntry := by
  rw [List.map_set, h]
  obtain ⟨hi, rfl⟩ := List.getElem?_eq_some_iff.mp hp
  rw [← List.getElem_map OptionParser.shortEntry (h := by simpa using hi), List.set_getElem_self]

theorem digestAt_shortEntry (i : ℕ) (argument : StdString) (ps : List (OptionParser δ)) :
    (leaves (digestAt i argument ps)).1.map OptionParser.shortEntry
      = ps.map OptionParser.shortEntry := by
  rw [digestAt]
  cases hp : ps[i]? with
  | none => rfl
  | some p =>
    have hsame := digest_shortEntry p argument
    dsimp only
    cases hdigest : p.digest argument with
    | error e p' =>
      rw [hdigest] at hsame
      exact map_shortEntry_set hp hsame
    | ok u p' =>
      rw [hdigest] at hsame
      exact map_shortEntry_set hp hsame

theorem digestAt_ok_shortEntry {i : ℕ} {argument : StdString} {ps ps' : List (OptionParser δ)}
    {calls : List DigestCall} (h : digestAt i argument ps = .ok () (ps', calls)) :
    ps'.map OptionParser.shortEntry = ps.map OptionParser.shortEntry := by
  have hsame := digestAt_shortEntry i argument ps
  rw [h] at hsame
  exact hsame

theorem getElem?_shortEntry {ps ps' : List (OptionParser δ)}
    (h : ps'.map OptionParser.shortEntry = ps.map OptionParser.shortEntry) (i : ℕ) :
    ps'[i]?.map OptionParser.shortEntry = ps[i]?.map OptionParser.shortEntry := by
  rw [← List.getElem?_map, h, List.getElem?_map]

/-- What `getopt_long` returns depends on the options only. -/
theorem report_congr {ps ps' : List (OptionParser δ)}
    (h : ps'.map OptionParser.shortEntry = ps.map OptionParser.shortEntry) (occ : Occurrence) :
    report ps' occ = report ps occ := by
  cases occ with
  | declared i argument =>
    have hi := getElem?_shortEntry h i
    rw [report, report]
    cases hp' : ps'[i]? with
    | none =>
      rw [hp', Option.map_none, eq_comm, Option.map_eq_none_iff] at hi
      rw [hi]
    | some p' =>
      rw [hp', Option.map_some, eq_comm, Option.map_eq_some_iff] at hi
      obtain ⟨p, hp, hentry⟩ := hi
      obtain ⟨hshort, hbool⟩ := Prod.mk.inj hentry
      rw [hp]
      dsimp only
      rw [hshort, Bool.not_inj hbool]
  | unknown => rfl
  | help => rfl

/-! ### One occurrence -/

/-- The options of the parsers are distinct, and none is `-h`: what the constructor
makes sure of. -/
def Distinct (parsers : List (OptionParser δ)) : Prop :=
  (parsers.map OptionParser.shortOption).Nodup ∧
    chr 'h' ∉ parsers.map OptionParser.shortOption

theorem distinct_congr {ps ps' : List (OptionParser δ)}
    (h : ps'.map OptionParser.shortEntry = ps.map OptionParser.shortEntry) :
    Distinct ps' ↔ Distinct ps := by
  have hfst : ∀ l : List (OptionParser δ),
      l.map OptionParser.shortOption = (l.map OptionParser.shortEntry).map Prod.fst := by
    intro l
    rw [List.map_map]
    rfl
  rw [Distinct, Distinct, hfst, hfst, h]

/-- The character of the option is one that the loop takes for something else. -/
def Sentinel (parsers : List (OptionParser δ)) (i : ℕ) : Prop :=
  ∃ p, parsers[i]? = some p ∧ (p.shortOption = chr '?' ∨ p.shortOption = -1)

theorem sentinel_congr {ps ps' : List (OptionParser δ)}
    (h : ps'.map OptionParser.shortEntry = ps.map OptionParser.shortEntry) (i : ℕ) :
    Sentinel ps' i ↔ Sentinel ps i := by
  have hfst : ∀ l : List (OptionParser δ), Sentinel l i ↔
      ∃ e, l[i]?.map OptionParser.shortEntry = some e ∧ (e.1 = chr '?' ∨ e.1 = -1) := by
    intro l
    simp [Sentinel, OptionParser.shortEntry]
  rw [hfst, hfst, getElem?_shortEntry h]

theorem toInt32_inj {c d : Int8} : c.toInt32 = d.toInt32 ↔ c = d := by
  refine ⟨fun h => ?_, fun h => h ▸ rfl⟩
  rw [← Int8.toInt8_toInt32 c, h, Int8.toInt8_toInt32]

/-- The argument of a flag does not matter. -/
theorem digest_optarg (p : OptionParser δ) (argument : StdString) :
    let optarg := if p.isBoolean then none else some argument
    p.digest (optarg.getD []) = p.digest argument ∧
      ∀ I, p.call I (optarg.getD []) = p.call I argument := by
  cases p with
  | boolean p => exact ⟨rfl, fun _ => rfl⟩
  | parameter type p => exact ⟨rfl, fun _ => rfl⟩

/-- `ParseOption` over all parsers: the parser that declares the option digests it. -/
theorem forEachTuple_parseOption {ps : List (OptionParser δ)} {i : ℕ} {p : OptionParser δ}
    (hnodup : (ps.map OptionParser.shortOption).Nodup) (hp : ps[i]? = some p)
    (argument : StdString) (log : List DigestCall) :
    forEachTuple (parseOption p.shortOption argument) 0 ps log =
      match digestAt i argument ps with
      | .error e (ps, calls) => .error e (ps, log ++ calls)
      | .ok () (ps, calls) => .ok () (ps, log ++ calls) := by
  have hskip : ∀ j q, j ≠ i → ps[j]? = some q →
      ∀ I s, parseOption p.shortOption argument I q s = .ok () (q, s) := by
    intro j q hj hq I s
    have hne : p.shortOption ≠ q.shortOption := by
      intro heq
      have hget :
          (ps.map OptionParser.shortOption)[j]? = (ps.map OptionParser.shortOption)[i]? := by
        rw [List.getElem?_map, List.getElem?_map, hp, hq, Option.map_some, Option.map_some, heq]
      have hlt : j < (ps.map OptionParser.shortOption).length := by
        rw [List.length_map]
        exact (List.getElem?_eq_some_iff.mp hq).1
      exact hj ((List.getElem?_inj hlt hnodup).mp hget)
    rw [parseOption, if_neg hne]
  rw [forEachTuple_at hp hskip, Nat.zero_add, parseOption, if_pos rfl, digestAt, hp]
  dsimp only
  cases p.digest argument with
  | error e p' => rfl
  | ok u p' => rfl

/-- One turn of the loop at a declared option whose character is no sentinel. -/
theorem optionLoop_declared {ps : List (OptionParser δ)} {i : ℕ} {p : OptionParser δ}
    (hps : Distinct ps) (hp : ps[i]? = some p) (hsent : ¬Sentinel ps i) (argument : StdString)
    (rs : List GetoptReturn) (log : List DigestCall) (n : ℕ) :
    optionLoop (report ps (.declared i argument) :: rs) ⟨ps, log, n⟩ =
      match digestAt i argument ps with
      | .error e (ps, calls) => .error e ⟨ps, log ++ calls, n + 1⟩
      | .ok () (ps, calls) => optionLoop rs ⟨ps, log ++ calls, n + 1⟩ := by
  have hminus : p.shortOption.toInt32 ≠ -1 := fun heq =>
    hsent ⟨p, hp, .inr (toInt32_inj.mp heq)⟩
  have hh : p.shortOption.toInt32 ≠ (chr 'h').toInt32 := fun heq =>
    hps.2 (List.mem_map.mpr ⟨p, List.mem_of_getElem? hp, toInt32_inj.mp heq⟩)
  have hquestion : p.shortOption.toInt32 ≠ (chr '?').toInt32 := fun heq =>
    hsent ⟨p, hp, .inl (toInt32_inj.mp heq)⟩
  obtain ⟨hdigest, hcall⟩ := digest_optarg p argument
  have hsame : digestAt i ((if p.isBoolean then none else some argument).getD []) ps
      = digestAt i argument ps := by
    rw [digestAt, digestAt, hp]
    dsimp only
    rw [hdigest, hcall]
  rw [report, hp]
  dsimp only
  rw [optionLoop, if_neg hminus, if_neg hh, if_neg hquestion, Int8.toInt8_toInt32,
    forEachTuple_parseOption hps.1 hp, hsame]
  cases digestAt i argument ps with
  | error e r => rfl
  | ok u r => rfl

/-- One turn of the loop at a declared option whose character is a sentinel: nothing is
digested. -/
theorem optionLoop_sentinel {ps : List (OptionParser δ)} {i : ℕ} (hsent : Sentinel ps i)
    (argument : StdString) (rs : List GetoptReturn) (phase : OptionPhase δ) :
    ∃ result, optionLoop (report ps (.declared i argument) :: rs) phase
      = .ok result { phase with calls := phase.calls + 1 } := by
  obtain ⟨p, hp, hchar⟩ := hsent
  rw [report, hp]
  dsimp only
  rcases hchar with hquestion | hminus
  · exact ⟨_, optionLoop_unknown rs phase (congrArg Int8.toInt32 hquestion)⟩
  · exact ⟨_, optionLoop_end rs phase (congrArg Int8.toInt32 hminus)⟩

/-! ### A whole command line -/

/-- The declared options of a command line have parsers. -/
def Declares (parsers : List (OptionParser δ)) (occs : List Occurrence) : Prop :=
  ∀ i argument, .declared i argument ∈ occs → i < parsers.length

/-- No option that the loop reaches has a sentinel as its character: all before it are
declared, and none of their digests throws. -/
def Clear (parsers : List (OptionParser δ)) (occs : List Occurrence) : Prop :=
  ∀ before i argument rest, occs = before ++ .declared i argument :: rest →
    firstOther before = none → DigestsReturn parsers before → ¬Sentinel parsers i

theorem digestsReturn_cons {ps : List (OptionParser δ)} {i : ℕ} {argument : StdString}
    {occs : List Occurrence} :
    DigestsReturn ps (.declared i argument :: occs) ↔
      ∃ ps' calls, digestAt i argument ps = .ok () (ps', calls) ∧ DigestsReturn ps' occs := by
  rw [DigestsReturn, declaredPrefix, digestAll]
  cases digestAt i argument ps with
  | error e r => exact ⟨fun ⟨_, h⟩ => (nomatch h), fun ⟨_, _, h, _⟩ => (nomatch h)⟩
  | ok u r =>
    obtain ⟨ps', calls⟩ := r
    dsimp only
    constructor
    · rintro ⟨q, hq⟩
      refine ⟨ps', calls, rfl, ?_⟩
      cases hall : digestAll (declaredPrefix occs) ps' with
      | error e q' =>
        rw [hall] at hq
        cases hq
      | ok u q' => exact ⟨q', hall⟩
    · rintro ⟨_, _, heq, q, hq⟩
      cases heq
      rw [hq]
      exact ⟨_, rfl⟩

/-- The command line is clear behind its first option if it is clear. -/
theorem clear_cons {ps : List (OptionParser δ)} {i : ℕ} {argument : StdString}
    {occs : List Occurrence} :
    Clear ps (.declared i argument :: occs) ↔
      ¬Sentinel ps i ∧
        ∀ ps' calls, digestAt i argument ps = .ok () (ps', calls) → Clear ps' occs := by
  constructor
  · intro h
    refine ⟨h [] i argument occs rfl rfl ⟨_, rfl⟩, fun ps' calls hdigest => ?_⟩
    intro before j a rest hocc hother hreturn
    rw [sentinel_congr (digestAt_ok_shortEntry hdigest)]
    exact h (.declared i argument :: before) j a rest (by rw [hocc]; rfl) hother
      (digestsReturn_cons.mpr ⟨ps', calls, hdigest, hreturn⟩)
  · rintro ⟨hhead, htail⟩ before j a rest hocc hother hreturn
    cases before with
    | nil =>
      cases hocc
      exact hhead
    | cons occ before =>
      obtain ⟨rfl, rfl⟩ := List.cons.inj hocc
      obtain ⟨ps', calls, hdigest, hreturn⟩ := digestsReturn_cons.mp hreturn
      rw [← sentinel_congr (digestAt_ok_shortEntry hdigest)]
      exact htail ps' calls hdigest before j a rest rfl hother hreturn

/-- The loop on a clear command line. -/
theorem optionLoop_clear {ps : List (OptionParser δ)} {occs : List Occurrence}
    (hps : Distinct ps) (hdeclares : Declares ps occs) (hclear : Clear ps occs)
    (log : List DigestCall) (n : ℕ) :
    match digestAll (declaredPrefix occs) ps with
    | .error e (ps', calls) =>
      ∃ k, optionLoop (occs.map (report ps)) ⟨ps, log, n⟩ = .error e ⟨ps', log ++ calls, k⟩
    | .ok () (ps', calls) =>
      match firstOther occs with
      | none => optionLoop (occs.map (report ps)) ⟨ps, log, n⟩
          = .ok none ⟨ps', log ++ calls, n + (occs.length + 1)⟩
      | some .help => ∃ k, optionLoop (occs.map (report ps)) ⟨ps, log, n⟩
          = .ok (some .help) ⟨ps', log ++ calls, k⟩
      | some _ => ∃ k, optionLoop (occs.map (report ps)) ⟨ps, log, n⟩
          = .ok (some .error) ⟨ps', log ++ calls, k⟩ := by
  induction occs generalizing ps log n with
  | nil => simp [declaredPrefix, digestAll, firstOther, optionLoop]
  | cons occ occs ih =>
    cases occ with
    | unknown =>
      simp only [declaredPrefix, digestAll, firstOther, List.append_nil]
      exact ⟨_, optionLoop_unknown _ _ rfl⟩
    | help =>
      simp only [declaredPrefix, digestAll, firstOther, List.append_nil]
      exact ⟨_, optionLoop_help _ _ rfl⟩
    | declared i argument =>
      obtain ⟨hsent, hrest⟩ := clear_cons.mp hclear
      have hp := List.getElem?_eq_getElem (hdeclares i argument List.mem_cons_self)
      rw [declaredPrefix, digestAll, firstOther, List.map_cons, optionLoop_declared hps hp hsent]
      cases hdigest : digestAt i argument ps with
      | error e r => exact ⟨_, rfl⟩
      | ok u r =>
        obtain ⟨ps', calls⟩ := r
        have hsame := digestAt_ok_shortEntry hdigest
        have hlength : ps'.length = ps.length := by simpa using congrArg List.length hsame
        have hih := ih ((distinct_congr hsame).mpr hps)
          (fun j a hj => hlength ▸ hdeclares j a (List.mem_cons_of_mem _ hj))
          (hrest ps' calls hdigest) (log ++ calls) (n + 1)
        -- the reports of the rest are the same for the parsers after the digest
        rw [funext (report_congr hsame)] at hih
        dsimp only
        cases hall : digestAll (declaredPrefix occs) ps' with
        | error e q =>
          rw [hall] at hih
          obtain ⟨k, hrun⟩ := hih
          exact ⟨k, by rw [hrun, List.append_assoc]⟩
        | ok u q =>
          rw [hall] at hih
          dsimp only at hih ⊢
          rw [← List.append_assoc, List.length_cons, Nat.add_comm (occs.length + 1) 1,
            ← Nat.add_assoc]
          exact hih

/-- Parsers that use no sentinel make every command line clear. -/
theorem clear_of_forall {ps : List (OptionParser δ)} {occs : List Occurrence}
    (h : ∀ p ∈ ps, p.shortOption ≠ chr '?' ∧ p.shortOption ≠ -1) : Clear ps occs := by
  rintro before i argument rest - - - ⟨p, hp, hquestion | hminus⟩
  · exact (h p (List.mem_of_getElem? hp)).1 hquestion
  · exact (h p (List.mem_of_getElem? hp)).2 hminus

/-- What the loop does to the parsers on a clear command line. -/
theorem optionLoop_clear_leaves {ps : List (OptionParser δ)} {occs : List Occurrence}
    (hps : Distinct ps) (hdeclares : Declares ps occs) (hclear : Clear ps occs) :
    let expected := leaves (digestAll (declaredPrefix occs) ps)
    ∃ k, leaves (optionLoop (occs.map (report ps)) ⟨ps, [], 0⟩) = ⟨expected.1, expected.2, k⟩ := by
  have hrun := optionLoop_clear hps hdeclares hclear [] 0
  cases hall : digestAll (declaredPrefix occs) ps with
  | error e r =>
    rw [hall] at hrun
    obtain ⟨k, hrun⟩ := hrun
    exact ⟨k, by rw [hrun]; rfl⟩
  | ok u r =>
    rw [hall] at hrun
    dsimp only at hrun
    cases hother : firstOther occs with
    | none =>
      rw [hother] at hrun
      exact ⟨_, by rw [hrun]; rfl⟩
    | some occ =>
      rw [hother] at hrun
      rcases firstOther_eq_some hother with rfl | rfl
      · obtain ⟨k, hrun⟩ := hrun
        exact ⟨k, by rw [hrun]; rfl⟩
      · obtain ⟨k, hrun⟩ := hrun
        exact ⟨k, by rw [hrun]; rfl⟩

/-- Nothing behind an occurrence of another kind is reached. -/
theorem clear_other {ps : List (OptionParser δ)} {occ : Occurrence} {occs : List Occurrence}
    (h : firstOther [occ] = some occ) : Clear ps (occ :: occs) := by
  intro before i argument rest hocc hother
  cases before with
  | nil =>
    cases hocc
    cases h
  | cons occ' before =>
    obtain ⟨rfl, -⟩ := List.cons.inj hocc
    cases occ with
    | declared i argument => cases h
    | unknown => cases hother
    | help => cases hother

/-- Every digest of a declared option is one call. -/
theorem digestAll_calls_length {ps : List (OptionParser δ)} {i : ℕ} (hi : i < ps.length)
    (argument : StdString) (options : List (ℕ × StdString)) :
    (leaves (digestAll ((i, argument) :: options) ps)).2.length =
      match digestAt i argument ps with
      | .error _ _ => 1
      | .ok _ r => (leaves (digestAll options r.1)).2.length + 1 := by
  rw [digestAll, digestAt, List.getElem?_eq_getElem hi]
  dsimp only
  cases ps[i].digest argument with
  | error e p => rfl
  | ok u p =>
    dsimp only
    cases digestAll options (ps.set i p) with
    | error e r => simp [leaves]
    | ok u r => simp [leaves]

/-- On a command line that is not clear, the loop ends before some declared option is
digested. -/
theorem optionLoop_not_clear {ps : List (OptionParser δ)} {occs : List Occurrence}
    (hps : Distinct ps) (hdeclares : Declares ps occs) (hclear : ¬Clear ps occs)
    (log : List DigestCall) (n : ℕ) :
    ∃ result phase, optionLoop (occs.map (report ps)) ⟨ps, log, n⟩ = .ok result phase ∧
      phase.digests.length
        < log.length + (leaves (digestAll (declaredPrefix occs) ps)).2.length := by
  induction occs generalizing ps log n with
  | nil => exact absurd (fun before _ _ _ hocc => by simp at hocc) hclear
  | cons occ occs ih =>
    cases occ with
    | unknown => exact absurd (clear_other rfl) hclear
    | help => exact absurd (clear_other rfl) hclear
    | declared i argument =>
      have hi := hdeclares i argument List.mem_cons_self
      rw [declaredPrefix, digestAll_calls_length hi, List.map_cons]
      by_cases hsent : Sentinel ps i
      · -- the call of this option is missing
        obtain ⟨result, hrun⟩ :=
          optionLoop_sentinel hsent argument (occs.map (report ps)) ⟨ps, log, n⟩
        refine ⟨result, _, hrun, ?_⟩
        cases digestAt i argument ps with
        | error e r => exact Nat.lt_succ_self _
        | ok u r => exact Nat.lt_add_of_pos_right (Nat.succ_pos _)
      · -- the call that is missing is one of a later option
        rw [optionLoop_declared hps (List.getElem?_eq_getElem hi) hsent]
        cases hdigest : digestAt i argument ps with
        | error e r =>
          refine absurd (clear_cons.mpr ⟨hsent, fun ps' calls hok => ?_⟩) hclear
          rw [hdigest] at hok
          cases hok
        | ok u r =>
          obtain ⟨ps', calls⟩ := r
          have hsame := digestAt_ok_shortEntry hdigest
          have hlength : ps'.length = ps.length := by simpa using congrArg List.length hsame
          have hcalls : calls.length = 1 := by
            have hone := digestAll_calls_length hi argument []
            rw [digestAll, hdigest] at hone
            simpa [digestAll, leaves] using hone
          have hrest : ¬Clear ps' occs := by
            intro hrest
            refine hclear (clear_cons.mpr ⟨hsent, fun ps'' calls' hok => ?_⟩)
            rw [hdigest] at hok
            cases hok
            exact hrest
          obtain ⟨result, phase, hrun, hlt⟩ := ih ((distinct_congr hsame).mpr hps)
            (fun j a hj => hlength ▸ hdeclares j a (List.mem_cons_of_mem _ hj)) hrest
            (log ++ calls) (n + 1)
          rw [funext (report_congr hsame)] at hrun
          rw [List.length_append, hcalls, Nat.add_assoc, Nat.add_comm 1] at hlt
          exact ⟨result, phase, hrun, hlt⟩

/-! ### Dispatch -/

/-- The constructor keeps the options apart. -/
theorem distinct_of_create {description footer : StdString} {values : List (Value T)}
    {ps : List (OptionParser δ)} {self : ArgParser T δ}
    (h : ArgParser.create description values ps footer = .ok self) :
    self.parsers = ps ∧ self.values = values ∧ Distinct ps := by
  by_cases hcons : Constructs ps
  · rw [ArgParser.create_constructs hcons, Except.ok.injEq] at h
    obtain ⟨hcompat, hshort, -⟩ := hcons
    have hnodup : ps.Pairwise fun p q => p.shortOption ≠ q.shortOption := by
      refine hcompat.imp ?_
      intro p q hpq heq
      exact hpq.1 (heq ▸ List.mem_cons_self)
    rw [← h]
    exact ⟨rfl, rfl, List.pairwise_map.mpr hnodup, hshort⟩
  · obtain ⟨e, he⟩ := ArgParser.create_not_constructs (T := T) hcons
    rw [he] at h
    cases h

/-- A clear command line is dispatched. -/
theorem dispatched_of_clear {self : ArgParser T δ} {occs : List Occurrence}
    (hdistinct : Distinct self.parsers) (hdeclares : Declares self.parsers occs)
    (hclear : Clear self.parsers occs) (executable : StdString) (residual : ℕ → List StdString) :
    Dispatched self occs residual
      (self.parse executable (commandLine self.parsers occs residual)) := by
  obtain ⟨hparsers, hdigests⟩ :=
    @parse_phase T δ self executable (commandLine self.parsers occs residual)
  obtain ⟨k, hleaves⟩ := optionLoop_clear_leaves hdistinct hdeclares hclear
  rw [commandLine, hleaves] at hparsers hdigests
  have hrun := optionLoop_clear hdistinct hdeclares hclear [] 0
  cases hall : digestAll (declaredPrefix occs) self.parsers with
  | error e r =>
    have hthrows : ¬DigestsReturn self.parsers occs := fun ⟨q, hq⟩ => by
      rw [hall] at hq
      cases hq
    rw [hall] at hrun
    obtain ⟨k, hrun⟩ := hrun
    obtain ⟨hresult, hvalues⟩ :=
      parse_throws executable (commandLine self.parsers occs residual) hrun
    exact
      { parsers := hparsers
        digests := hdigests
        help := by simp [hresult, hthrows]
        error := fun _ => ⟨hresult, hvalues⟩
        positional := fun hreturn => absurd hreturn hthrows }
  | ok u r =>
    have hreturn : DigestsReturn self.parsers occs := ⟨r, hall⟩
    rw [hall] at hrun
    dsimp only at hrun
    cases hother : firstOther occs with
    | none =>
      rw [hother] at hrun
      obtain ⟨hresult, hvalues⟩ :=
        parse_positional executable (commandLine self.parsers occs residual) hrun
      exact
        { parsers := hparsers
          digests := hdigests
          help := by
            rw [hresult, hother]
            exact ⟨fun h => absurd h (positionalResult_ne_help _ _), fun h => nomatch h.2⟩
          error := fun h => absurd h (by simp [hreturn, hother])
          positional := fun _ _ => by
            rw [hresult, hvalues]
            simp [commandLine] }
    | some occ =>
      rw [hother] at hrun
      rcases firstOther_eq_some hother with rfl | rfl
      · obtain ⟨k, hrun⟩ := hrun
        obtain ⟨hresult, hvalues⟩ :=
          parse_options executable (commandLine self.parsers occs residual) hrun
        exact
          { parsers := hparsers
            digests := hdigests
            help := by simp [hresult, hother]
            error := fun _ => ⟨hresult, hvalues⟩
            positional := fun _ h => absurd (hother ▸ h) nofun }
      · obtain ⟨k, hrun⟩ := hrun
        obtain ⟨hresult, -⟩ :=
          parse_options executable (commandLine self.parsers occs residual) hrun
        exact
          { parsers := hparsers
            digests := hdigests
            help := by simp [hresult, hreturn, hother]
            error := fun h => absurd h (by simp [hreturn, hother])
            positional := fun _ h => absurd (hother ▸ h) nofun }

/-- **`parse` does what a command line says exactly when no option that the loop reaches
uses the character `?` or the character -1.** -/
theorem option_dispatch_iff (description footer : StdString) (values : List (Value T))
    (parsers : List (OptionParser δ)) (self : ArgParser T δ)
    (hself : ArgParser.create description values parsers footer = .ok self)
    (executable : StdString) (occs : List Occurrence) (hdeclares : Declares parsers occs)
    (residual : ℕ → List StdString) :
    Dispatched self occs residual
        (self.parse executable (commandLine parsers occs residual)) ↔
      Clear parsers occs := by
  obtain ⟨rfl, rfl, hdistinct⟩ := distinct_of_create hself
  refine ⟨fun h => ?_, fun h => dispatched_of_clear hdistinct hdeclares h executable residual⟩
  by_contra hclear
  obtain ⟨result, phase, hrun, hlt⟩ := optionLoop_not_clear hdistinct hdeclares hclear [] 0
  have hdigests := h.digests
  rw [(parse_phase executable _).2, commandLine, hrun] at hdigests
  rw [← hdigests, List.length_nil, Nat.zero_add] at hlt
  exact lt_irrefl _ hlt

/-- The parser that the constructor makes of `verboseAndOutput`. -/
def verboseParser : ArgParser StdString (Value StdString) :=
  { description := str "Copy files"
    values := []
    parsers := verboseAndOutput
    footer := []
    longOptions := verboseAndOutput.map OptionParser.longEntry
      ++ [ArgParser.helpOption, ArgParser.terminator]
    shortOptions := str "vo:h" }

/-- `-v -o a -v --help` -/
def verboseTwice : List Occurrence :=
  [.declared 0 [], .declared 1 (str "a"), .declared 0 [], .help]

theorem option_dispatch_verbose :
    Dispatched verboseParser verboseTwice (fun _ => [])
      (verboseParser.parse (str "copy")
        (commandLine verboseAndOutput verboseTwice fun _ => [])) := by
  have hdeclares : Declares verboseAndOutput verboseTwice := by
    intro i argument h
    have hi : i = 0 ∨ i = 1 ∨ i = 0 := by
      simp only [verboseTwice, List.mem_cons, Occurrence.declared.injEq, reduceCtorEq,
        List.not_mem_nil, or_false] at h
      exact h.imp And.left (Or.imp And.left And.left)
    show i < 2
    omega
  exact (option_dispatch_iff (str "Copy files") [] [] verboseAndOutput verboseParser rfl
    (str "copy") verboseTwice hdeclares fun _ => []).mpr (clear_of_forall (by decide))

/-- A flag `-?`, which the constructor accepts. -/
def query : List (OptionParser (Value StdString)) :=
  [.boolean (.create (chr '?') (str "query") (str "Only ask"))]

/-- The parser that the constructor makes of `query`. -/
def queryParser : ArgParser StdString (Value StdString) :=
  { description := str "Copy files"
    values := []
    parsers := query
    footer := []
    longOptions := query.map OptionParser.longEntry ++ [ArgParser.helpOption, ArgParser.terminator]
    shortOptions := str "?h" }

/-- `-?` is taken for an unknown option. -/
theorem option_dispatch_query :
    ArgParser.create (str "Copy files") [] query [] = .ok queryParser ∧
      ¬Dispatched queryParser [.declared 0 []] (fun _ => [])
        (queryParser.parse (str "copy") (commandLine query [.declared 0 []] fun _ => [])) :=
  ⟨rfl, fun h => absurd h.digests (by decide)⟩

end Brasa.Argparse
