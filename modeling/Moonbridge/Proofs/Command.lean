import Moonbridge.Command
import Moonbridge.Proofs.Files.Effects

/-!
# What a run of the command does to files

A run that has no output leaves every file and directory alone. One whose output cannot be written
may have made directories on the way to it, and nothing else. One that succeeds has put the output
of the source, as it was read before, under the path of the output, and again nothing else but
directories on the way to it. No run ends in any other way.
-/

namespace Moonbridge.Command

open Files (Store)

/-- The run ends with an error before anything was changed. -/
structure Refused (s : Store) (o : Outcome) (s' : Store) : Prop where
  exit : o.exit ≠ 0
  stdout : o.stdout = ""
  stderr : ∃ text, o.stderr = "error: " ++ text
  unchanged : s' = s

/-- Files stay as they are, and directories appear only where there was nothing on the way to a
path; what happens at one place may be left out. -/
structure Spared (path : String) (s s' : Store) (apart : Files.Place → Prop) : Prop where
  files : ∀ place, ¬ apart place → ∀ content,
    s'.get? place = some (.file content) ↔ s.get? place = some (.file content)
  directories : ∀ place, ¬ apart place → s'.get? place ≠ s.get? place →
    s.get? place = none ∧ s'.get? place = some .directory ∧ Store.OnTheWay path place

/-- The run ends with an error because its output could not be written. -/
structure Unwritten (path : String) (s : Store) (o : Outcome) (s' : Store) : Prop where
  exit : o.exit = 1
  stdout : o.stdout = ""
  stderr : ∃ text, o.stderr = "error: " ++ text
  spared : Spared path s s' fun _ => False

/-- The run ends with its output under a path. -/
structure Written (path code : String) (s : Store) (o : Outcome) (s' : Store) : Prop where
  exit : o.exit = 0
  stderr : o.stderr = ""
  content : s'.read path = .ok code.toUTF8
  placed : s'.get? (Store.placeOf path) = some (.file code.toUTF8)
  spared : Spared path s s' (· = Store.placeOf path)

/-- A path leads to a file with the encoding of a text. -/
def Holds (s : Store) (path text : String) : Prop :=
  ∃ bytes, s.read path = .ok bytes ∧ String.fromUTF8? bytes = some text

/-- A path leads to no file, or to one whose content encodes no text. -/
def HoldsNoText (s : Store) (path : String) : Prop :=
  (∃ refusal, s.read path = .error refusal) ∨
    ∃ bytes, s.read path = .ok bytes ∧ String.fromUTF8? bytes = none

/-- How a run with given arguments ends, and what it does to the store. -/
inductive Effects (s : Store) (args : List String) (o : Outcome) (s' : Store) : Prop
  | help (asked : parseArgs args = .error .help) (ended : o = ⟨0, usage, ""⟩) (unchanged : s' = s)
  | misused {stop : Stop} (asked : parseArgs args = .error stop) (isError : stop ≠ .help)
      (refused : Refused s o s')
  | unreadable {request : Request} (asked : parseArgs args = .ok request)
      (source : HoldsNoText s request.input) (refused : Refused s o s')
  | erroneous {request : Request} {text : String} {e : SourceError}
      (asked : parseArgs args = .ok request) (source : Holds s request.input text)
      (failed : output request.stopAt text = .error e) (refused : Refused s o s')
  | unwritten {request : Request} {text code : String} (asked : parseArgs args = .ok request)
      (source : Holds s request.input text) (done : output request.stopAt text = .ok code)
      (unwritten : Unwritten request.output s o s')
  | written {request : Request} {text code : String} (asked : parseArgs args = .ok request)
      (source : Holds s request.input text) (done : output request.stopAt text = .ok code)
      (written : Written request.output code s o s')

section Stores

variable {s s₁ s' : Store} {path : String}

/-- Making directories for the parents of a path spares all else. -/
theorem spared_of_grows (h : Store.Grows (Files.ancestors (Files.parent path)) s s') :
    Spared path s s' fun _ => False where
  files := by
    intro place _ content
    rcases h place with hsame | ⟨hnone, hmade, -⟩
    · rw [hsame]
    · simp [hnone, hmade]
  directories := by
    intro place _ hchanged
    rcases h place with hsame | ⟨hnone, hmade, parent, hparent, rfl⟩
    · exact absurd hsame hchanged
    · exact ⟨hnone, hmade, Store.onTheWay_of_mem_ancestors hparent⟩

/-- Writing a file afterwards changes its own place only. -/
theorem Spared.put (h : Spared path s s₁ fun _ => False) (item : Files.Item) :
    Spared path s (s₁.put (Store.placeOf path) item) (· = Store.placeOf path) where
  files := by
    intro place hplace content
    rw [Store.get?_put_of_ne s₁ item hplace]
    exact h.files place id content
  directories := by
    intro place hplace
    rw [Store.get?_put_of_ne s₁ item hplace]
    exact h.directories place id

end Stores

section Runs

variable {s : Store} {request : Request}

/-- A run that fails with a message and touches nothing is refused. -/
theorem refused_failure {exit : Nat} (hexit : exit ≠ 0) (message : String) (s : Store) :
    Refused s (.failure exit message) s :=
  ⟨hexit, rfl, ⟨message ++ "\n", String.append_assoc⟩, rfl⟩

/-- Arguments that are no request and do not ask for help end the run with an error. -/
theorem refused_stop {stop : Stop} (h : stop ≠ .help) (s : Store) :
    Refused s stop.outcome s := by
  cases stop with
  | help => exact absurd rfl h
  | missingPhase | unknownFlag flag | unknownPhase name =>
    exact refused_failure (by decide) _ s
  | wrongPaths =>
    have hmessage : "error: expected INPUT and OUTPUT paths\n" =
        "error: " ++ "expected INPUT and OUTPUT paths\n" := rfl
    refine ⟨by decide, rfl, ⟨"expected INPUT and OUTPUT paths\n" ++ usage, ?_⟩, rfl⟩
    exact (congrArg (· ++ usage) hmessage).trans String.append_assoc

/-- A path leads to the encoding of a text, which is the source, or there is a message. -/
theorem holds_or_not (s : Store) (path : String) :
    (HoldsNoText s path ∧ ∃ message, source path (s.read path) = .error message) ∨
      ∃ text, Holds s path text ∧ source path (s.read path) = .ok text := by
  cases hread : s.read path with
  | error refusal => exact Or.inl ⟨Or.inl ⟨refusal, hread⟩, _, rfl⟩
  | ok bytes =>
    cases htext : String.fromUTF8? bytes with
    | none =>
      refine Or.inl ⟨Or.inr ⟨bytes, hread, htext⟩, path ++ ": invalid utf-8", ?_⟩
      simp [source, htext]
    | some text => exact Or.inr ⟨text, ⟨bytes, hread, htext⟩, by simp [source, htext]⟩

/-- A request without an output ends with an error. -/
theorem run_perform_error {message : String}
    (h : result request (s.read request.input) = .error message) :
    (perform Store.disk request).run s = (.failure 1 message, s) := by
  have hread : (Store.disk.read request.input).run s = (s.read request.input, s) := rfl
  unfold perform
  rw [Store.run_bind_of_run hread, h]
  rfl

/-- A request with an output saves it. -/
theorem run_perform_ok {code : String}
    (h : result request (s.read request.input) = .ok code) :
    Unwritten request.output s ((perform Store.disk request).run s).1
        ((perform Store.disk request).run s).2 ∨
      Written request.output code s ((perform Store.disk request).run s).1
        ((perform Store.disk request).run s).2 := by
  have hread : (Store.disk.read request.input).run s = (s.read request.input, s) := rfl
  obtain ⟨s₁, hgrows, ⟨denial, hsave⟩ | ⟨s', hwrite, hsave⟩⟩ :=
    Store.run_save request.output code.toUTF8 s
  · refine Or.inl ?_
    unfold perform
    rw [Store.run_bind_of_run hread, h, Store.run_bind_of_run hsave]
    exact ⟨rfl, rfl, ⟨_, String.append_assoc⟩, spared_of_grows hgrows⟩
  · obtain ⟨hdirectory, rfl, hcontent⟩ := Store.write_eq_ok hwrite
    have hroot : Store.placeOf request.output ≠ [] := by
      intro hroot
      simp [hroot, Store.get?] at hdirectory
    refine Or.inr ?_
    unfold perform
    rw [Store.run_bind_of_run hread, h, Store.run_bind_of_run hsave]
    exact ⟨rfl, rfl, hcontent, Store.get?_put_self s₁ _ hroot, (spared_of_grows hgrows).put _⟩

end Runs

/-- Every run of the command, on every store, ends in one of the described ways. -/
theorem run_effects (s : Store) (args : List String) :
    Effects s args ((run Store.disk args).run s).1 ((run Store.disk args).run s).2 := by
  unfold run
  cases hargs : parseArgs args with
  | error stop =>
    by_cases hhelp : stop = .help
    · subst hhelp
      exact .help hargs rfl rfl
    · exact .misused hargs hhelp (refused_stop hhelp s)
  | ok request =>
    rcases holds_or_not s request.input with ⟨hnone, message, hmessage⟩ | ⟨text, htext, hsource⟩
    · have hresult : result request (s.read request.input) = .error message := by
        rw [result, hmessage]
        rfl
      simp only [run_perform_error hresult]
      exact .unreadable hargs hnone (refused_failure (by decide) message s)
    · have hresult : result request (s.read request.input) =
          (output request.stopAt text).mapError (·.message) := by
        rw [result, hsource]
        rfl
      cases houtput : output request.stopAt text with
      | error e =>
        rw [houtput] at hresult
        simp only [run_perform_error hresult]
        exact .erroneous hargs htext houtput (refused_failure (by decide) _ s)
      | ok code =>
        rw [houtput] at hresult
        rcases run_perform_ok hresult with hunwritten | hwritten
        · exact .unwritten hargs htext houtput hunwritten
        · exact .written hargs htext houtput hwritten

end Moonbridge.Command
