import Moonbridge.Command

/-!
# The grammar of the arguments

Arguments that are a request interleave two paths with options, each of which takes the argument
behind it as its value, whatever that is. All other arguments end the run: with success if the
first one that is neither a path nor part of an option asks for help, and with an error otherwise.
The last value of an option counts, so that an option may stand on either side of a path.
-/

namespace Moonbridge

namespace Phase

/-- The names of the phases differ. -/
theorem name_inj {phase phase' : Phase} : phase.name = phase'.name ↔ phase = phase' := by
  cases phase <;> cases phase' <;> decide

/-- A phase is found by its name only. -/
theorem ofName?_eq_some_iff {name : String} {phase : Phase} :
    ofName? name = some phase ↔ name = phase.name := by
  constructor
  · intro h
    unfold ofName? at h
    have hname := List.find?_some h
    exact (beq_iff_eq.mp hname).symm
  · rintro rfl
    cases phase <;> decide

end Phase

namespace Command

/-- A path does not start with a hyphen. -/
def IsPath (arg : String) : Prop := arg.toList.head? ≠ some '-'

/-- Whether an argument is a path is decided on its text. -/
instance (arg : String) : Decidable (IsPath arg) := inferInstanceAs (Decidable (_ ≠ _))

/-- An argument that asks for help. -/
def AsksHelp (arg : String) : Prop := arg = "-h" ∨ arg = "--help"

/-- Arguments that interleave paths with options and their values, each in their order. -/
inductive Interleaved : (paths values args : List String) → Prop
  | nil : Interleaved [] [] []
  | path {arg : String} {paths values args : List String} (isPath : IsPath arg)
      (tail : Interleaved paths values args) : Interleaved (arg :: paths) values (arg :: args)
  | option {paths values args : List String} (value : String)
      (tail : Interleaved paths values args) :
      Interleaved paths (value :: values) ("--stop-at" :: value :: args)

/-- The arguments ask for something: they interleave its two paths with options, and the value of
the last option is the name of the phase to stop after. -/
def Asks (args : List String) (request : Request) : Prop :=
  ∃ values, Interleaved [request.input, request.output] values args ∧
    values.getLast? = request.stopAt.map Phase.name

/-- The first argument that is neither a path nor part of an option asks for help. -/
def HelpFirst (args : List String) : Prop :=
  ∃ paths values before arg after, args = before ++ arg :: after ∧
    Interleaved paths values before ∧ AsksHelp arg

/-- Arguments in which every option has a value, so that a further option may follow them. -/
inductive Complete : List String → Prop
  | nil : Complete []
  | single {arg : String} {args : List String} (noOption : arg ≠ "--stop-at")
      (tail : Complete args) : Complete (arg :: args)
  | option {args : List String} (value : String) (tail : Complete args) :
      Complete ("--stop-at" :: value :: args)

/-- An argument that is neither a path nor an option with a value, and why it ends the run. -/
inductive Stray (after : List String) : String → Stop → Prop
  | help {arg : String} (asks : AsksHelp arg) : Stray after arg .help
  | valueless (last : after = []) : Stray after "--stop-at" .missingPhase
  | flag {arg : String} (noPath : ¬ IsPath arg) (noHelp : ¬ AsksHelp arg)
      (noOption : arg ≠ "--stop-at") : Stray after arg (.unknownFlag arg)

/-- Arguments interleave paths with options, up to their end or up to a stray one. -/
inductive Read (args : List String) : Prop
  | whole {paths values : List String} (items : Interleaved paths values args)
  | upTo {paths values before after : List String} {arg : String} {stop : Stop}
      (split : args = before ++ arg :: after) (items : Interleaved paths values before)
      (stray : Stray after arg stop)

variable {arg : String} {args paths values before after : List String} {stop : Stop}
  {request : Request}

section Steps

/-- A path is taken as such. -/
theorem collect_path (h : IsPath arg) (phase : Option String) (done rest : List String) :
    collect phase done (arg :: rest) = collect phase (arg :: done) rest := by
  have hhelp : ¬ (arg = "--help" ∨ arg = "-h") := by
    rintro (rfl | rfl) <;> exact h rfl
  have hoption : arg ≠ "--stop-at" := by
    rintro rfl
    exact h rfl
  unfold IsPath at h
  cases rest with
  | nil => simp only [collect, hhelp, hoption, h, if_false]
  | cons next rest => rw [collect, if_neg hhelp, if_neg hoption, if_neg h]

/-- An option takes the argument behind it. -/
theorem collect_option (phase : Option String) (done : List String) (value : String)
    (rest : List String) :
    collect phase done ("--stop-at" :: value :: rest) = collect (some value) done rest := by
  rw [collect, if_neg (by decide), if_pos rfl]

/-- A stray argument ends the run. -/
theorem Stray.collect_eq (h : Stray after arg stop) (phase : Option String) (done : List String) :
    collect phase done (arg :: after) = .error stop := by
  cases h with
  | help asks =>
    have hhelp : arg = "--help" ∨ arg = "-h" := asks.symm
    cases after with
    | nil => rw [collect, if_pos hhelp]
    | cons next rest => rw [collect, if_pos hhelp]
  | valueless last =>
    subst last
    rw [collect, if_neg (by decide), if_pos rfl]
  | flag noPath noHelp noOption =>
    have hhelp : ¬ (arg = "--help" ∨ arg = "-h") := fun h => noHelp h.symm
    have hhyphen : arg.toList.head? = some '-' := Decidable.not_not.mp noPath
    cases after with
    | nil => rw [collect, if_neg hhelp, if_neg noOption, if_pos hhyphen]
    | cons next rest => rw [collect, if_neg hhelp, if_neg noOption, if_pos hhyphen]

end Steps

section Runs

/-- The value of the last option replaces those before it. -/
theorem getLast?_cons_or (value : String) (values : List String) (phase : Option String) :
    (value :: values).getLast?.or phase = values.getLast?.or (some value) := by
  cases hlast : values.getLast? <;> simp [List.getLast?_cons, hlast]

/-- Interleaved arguments are collected, in front of any others. -/
theorem Interleaved.collect_append (h : Interleaved paths values args) (phase : Option String)
    (done rest : List String) : collect phase done (args ++ rest) =
      collect (values.getLast?.or phase) (paths.reverse ++ done) rest := by
  induction h generalizing phase done with
  | nil => rfl
  | @path arg paths values args isPath tail ih =>
    rw [List.cons_append, collect_path isPath, ih, List.reverse_cons, List.append_assoc]
    rfl
  | @option paths values args value tail ih =>
    rw [List.cons_append, List.cons_append, collect_option, ih, getLast?_cons_or]

/-- What is interleaved is taken apart again, and the last value counts. -/
theorem Interleaved.collect_eq (h : Interleaved paths values args) :
    collect none [] args = .ok (values.getLast?, paths) := by
  have hcollect := h.collect_append none [] []
  rw [List.append_nil] at hcollect
  rw [hcollect]
  simp [collect]

/-- Arguments are collected up to a stray one. -/
theorem Interleaved.collect_stray (h : Interleaved paths values before)
    (hstray : Stray after arg stop) : collect none [] (before ++ arg :: after) = .error stop := by
  rw [h.collect_append, hstray.collect_eq]

/-- A path in front of arguments that are read is read with them. -/
theorem Read.path (h : Read args) (hpath : IsPath arg) : Read (arg :: args) := by
  cases h with
  | whole items => exact .whole (.path hpath items)
  | upTo split items stray =>
    subst split
    exact .upTo rfl (.path hpath items) stray

/-- An option with its value in front of arguments that are read is read with them. -/
theorem Read.option (h : Read args) (value : String) : Read ("--stop-at" :: value :: args) := by
  cases h with
  | whole items => exact .whole (.option value items)
  | upTo split items stray =>
    subst split
    exact .upTo rfl (.option value items) stray

/-- All arguments can be read from left to right. -/
theorem read_args : ∀ args : List String, Read args
  | [] => .whole .nil
  | arg :: rest => by
    by_cases hpath : IsPath arg
    · exact (read_args rest).path hpath
    by_cases hhelp : AsksHelp arg
    · exact .upTo rfl .nil (.help hhelp)
    by_cases hoption : arg = "--stop-at"
    · subst hoption
      cases rest with
      | nil => exact .upTo rfl .nil (.valueless rfl)
      | cons value rest => exact (read_args rest).option value
    · exact .upTo rfl .nil (.flag hpath hhelp hoption)

/-- Behind complete arguments the reading goes on from a state that they determine. -/
theorem Complete.collect_congr (h : Complete before)
    (hsame : ∀ phase done, collect phase done args = collect phase done after)
    (phase : Option String) (done : List String) :
    collect phase done (before ++ args) = collect phase done (before ++ after) := by
  induction h generalizing phase done with
  | nil => exact hsame phase done
  | @single arg before noOption tail ih =>
    by_cases hpath : IsPath arg
    · rw [List.cons_append, List.cons_append, collect_path hpath, collect_path hpath, ih]
    · -- A stray argument that is no option ends the run, whatever stands behind it.
      have hstray : ∃ stop, ∀ rest, Stray rest arg stop := by
        by_cases hhelp : AsksHelp arg
        · exact ⟨_, fun _ => .help hhelp⟩
        · exact ⟨_, fun _ => .flag hpath hhelp noOption⟩
      obtain ⟨stop, hstray⟩ := hstray
      rw [List.cons_append, List.cons_append, (hstray _).collect_eq, (hstray _).collect_eq]
  | option value tail ih =>
    simp only [List.cons_append, collect_option]
    exact ih _ _

end Runs

section Outcomes

/-- A name is accepted if it is absent or that of a phase. -/
theorem checkPhase_eq_ok_iff {name : Option String} {stopAt : Option Phase} :
    checkPhase name = .ok stopAt ↔ name = stopAt.map Phase.name := by
  cases name with
  | none => cases stopAt <;> simp [checkPhase]
  | some name =>
    cases hphase : Phase.ofName? name with
    | some phase =>
      obtain rfl := Phase.ofName?_eq_some_iff.mp hphase
      cases stopAt with
      | none => simp [checkPhase, hphase]
      | some phase' => simp [checkPhase, hphase, Phase.name_inj]
    | none =>
      have hnone : ∀ phase : Phase, name ≠ phase.name := fun phase hname =>
        Option.some_ne_none phase ((Phase.ofName?_eq_some_iff.mpr hname).symm.trans hphase)
      cases stopAt <;> simp [checkPhase, hphase, hnone]

/-- A name that is no phase is an error, and no request for help. -/
theorem checkPhase_ne_help (name : Option String) : checkPhase name ≠ .error .help := by
  unfold checkPhase
  split
  · simp
  · split <;> simp

/-- The end of a run without a request is a success if help was asked for. -/
theorem exit_outcome (stop : Stop) : stop.outcome.exit = if stop = .help then 0 else 2 := by
  cases stop <;> rfl

/-- Of interleaved arguments the last value is checked before the number of paths. -/
theorem Interleaved.parseArgs_eq (h : Interleaved paths values args) : parseArgs args = (do
    let stopAt ← checkPhase values.getLast?
    match paths with
    | [input, output] => return ⟨stopAt, input, output⟩
    | _ => .error .wrongPaths) := by
  rw [parseArgs, h.collect_eq]
  rfl

/-- Interleaved arguments are a request if there are two paths and the last value is a phase. -/
theorem Interleaved.parseArgs_eq_ok_iff (h : Interleaved paths values args) :
    parseArgs args = .ok request ↔ paths = [request.input, request.output] ∧
      values.getLast? = request.stopAt.map Phase.name := by
  rw [← checkPhase_eq_ok_iff, h.parseArgs_eq]
  obtain ⟨stopAt, input, output⟩ := request
  cases checkPhase values.getLast? with
  | error stop => simp [bind, Except.bind]
  | ok stopAt' =>
    simp only [bind, Except.bind]
    split
    · simp [pure, Except.pure, and_comm, and_assoc]
    · rename_i hpaths
      simp only [reduceCtorEq, false_iff, not_and]
      exact fun htwo => (hpaths _ _ htwo).elim

/-- Interleaved arguments do not ask for help. -/
theorem Interleaved.parseArgs_ne_help (h : Interleaved paths values args) :
    parseArgs args ≠ .error .help := by
  rw [h.parseArgs_eq]
  cases hphase : checkPhase values.getLast? with
  | error stop =>
    rintro ⟨rfl⟩
    exact checkPhase_ne_help _ hphase
  | ok stopAt =>
    simp only [bind, Except.bind]
    split <;> simp [pure, Except.pure]

/-- What stops the collection of the arguments stops the whole command line. -/
theorem parseArgs_of_stop (h : collect none [] args = .error stop) :
    parseArgs args = .error stop := by
  rw [parseArgs, h]
  rfl

/-- A command line is read exactly if it asks for something, and as what it asks for. -/
theorem parseArgs_eq_ok_iff : parseArgs args = .ok request ↔ Asks args request := by
  constructor
  · intro h
    cases read_args args with
    | @whole paths values items =>
      obtain ⟨rfl, hlast⟩ := items.parseArgs_eq_ok_iff.mp h
      exact ⟨values, items, hlast⟩
    | upTo split items stray =>
      subst split
      cases h.symm.trans (parseArgs_of_stop (items.collect_stray stray))
  · rintro ⟨values, items, hlast⟩
    exact items.parseArgs_eq_ok_iff.mpr ⟨rfl, hlast⟩

/-- Help is given if the first stray argument asks for it. -/
theorem parseArgs_eq_help_iff : parseArgs args = .error .help ↔ HelpFirst args := by
  constructor
  · intro h
    cases read_args args with
    | whole items => exact absurd h items.parseArgs_ne_help
    | @upTo paths values before after arg stop split items stray =>
      subst split
      obtain rfl := Except.error.inj
        (h.symm.trans (parseArgs_of_stop (items.collect_stray stray)))
      cases stray with
      | help asks => exact ⟨paths, values, before, arg, after, rfl, items, asks⟩
  · rintro ⟨paths, values, before, arg, after, rfl, items, asks⟩
    exact parseArgs_of_stop (items.collect_stray (.help asks))

end Outcomes

/-- The grammar of the arguments. They are a request exactly if they interleave its two paths with
options, the last of which names the phase to stop after. All other arguments end the run, with
code 0 exactly if the first one that is neither a path nor part of an option asks for help, and
with code 2 otherwise. An option may stand on either side of a path. -/
theorem arguments_read (args : List String) :
    (∀ request, parseArgs args = .ok request ↔ Asks args request) ∧
    ((∀ request, ¬ Asks args request) → ∃ stop, parseArgs args = .error stop ∧
      (HelpFirst args ∧ stop.outcome.exit = 0 ∨ ¬ HelpFirst args ∧ stop.outcome.exit = 2)) ∧
    ∀ before value path after, args = before ++ "--stop-at" :: value :: path :: after →
      Complete before → IsPath path →
        parseArgs args = parseArgs (before ++ path :: "--stop-at" :: value :: after) := by
  refine ⟨fun request => parseArgs_eq_ok_iff, fun hnone => ?_, ?_⟩
  · cases hargs : parseArgs args with
    | ok request => exact absurd (parseArgs_eq_ok_iff.mp hargs) (hnone request)
    | error stop =>
      refine ⟨stop, rfl, ?_⟩
      rw [← parseArgs_eq_help_iff, hargs, exit_outcome]
      by_cases hhelp : stop = .help <;> simp [hhelp]
  · rintro before value path after rfl hbefore hpath
    have hswap : ∀ phase done, collect phase done ("--stop-at" :: value :: path :: after) =
        collect phase done (path :: "--stop-at" :: value :: after) := by
      intro phase done
      rw [collect_option, collect_path hpath, collect_path hpath, collect_option]
    rw [parseArgs, parseArgs, hbefore.collect_congr hswap]

/-- An option takes a request for help as its value, but the next one is answered; and the option
may stand behind the path. -/
theorem arguments_read_swallowed :
    (∀ request, ¬ Asks ["--stop-at", "--help", "in.lua", "-h"] request) ∧
    (∃ stop, parseArgs ["--stop-at", "--help", "in.lua", "-h"] = .error stop ∧
      (HelpFirst ["--stop-at", "--help", "in.lua", "-h"] ∧ stop.outcome.exit = 0 ∨
        ¬ HelpFirst ["--stop-at", "--help", "in.lua", "-h"] ∧ stop.outcome.exit = 2)) ∧
    Complete [] ∧ IsPath "in.lua" ∧
    parseArgs ["--stop-at", "--help", "in.lua", "-h"] =
      parseArgs ["in.lua", "--stop-at", "--help", "-h"] := by
  have hhelp : parseArgs ["--stop-at", "--help", "in.lua", "-h"] = .error .help := by rfl
  have hnone : ∀ request, ¬ Asks ["--stop-at", "--help", "in.lua", "-h"] request := by
    intro request hasks
    cases hhelp.symm.trans (parseArgs_eq_ok_iff.mpr hasks)
  exact ⟨hnone, (arguments_read _).2.1 hnone, .nil, by decide,
    (arguments_read _).2.2 [] "--help" "in.lua" ["-h"] rfl .nil (by decide)⟩

end Command

end Moonbridge
