import Tapeworks.Proofs.CommandLine.Output
import Tapeworks.Proofs.Config
import Tapeworks.Proofs.Library.EvenA
import Tapeworks.Proofs.Machine.Pace

/-! The two ways to run a machine from the command line. A run without a pace shows the trace of the machine after the
    run has come to its halt, and a paced run shows each snapshot when its step is done. When the trace is kept whole and
    the run is not given up, both leave one report. -/

namespace Tapeworks.CommandLine

open Machine Code.Cursor

variable {m n done : Machine} {halt : Halt} {seen : List Snapshot} {delay : Duration} {config : Config}
  {files : Files} {machine : String} {options : RunOptions} {s : Session} {r r' : Report}

/-! ### What is left in the end -/

/-- The lines that a paced run shows, and after them the report that it ends with. -/
inductive Session.Leaves : Session → Report → Prop
  | ended {s : Session} {r : Report} : s.turn = .ended r → Leaves s r
  | shown {s next : Session} {line : String} {r : Report} :
      s.turn = .shown line next → Leaves next r → Leaves s (r.after line)

inductive Answer.Leaves : Answer → Report → Prop
  | report (r : Report) : Leaves (.report r) r
  | session {s : Session} {r : Report} : s.Leaves r → Leaves (.session s) (r.after s.opening)

theorem Session.Leaves.unique (h : s.Leaves r) (h' : s.Leaves r') : r = r' := by
  induction h generalizing r' with
  | ended hturn =>
    cases h' with
    | ended hturn' =>
      rw [hturn] at hturn'
      cases hturn'
      rfl
    | shown hturn' _ =>
      rw [hturn] at hturn'
      cases hturn'
  | shown hturn _ ih =>
    cases h' with
    | ended hturn' =>
      rw [hturn] at hturn'
      cases hturn'
    | shown hturn' hrest =>
      rw [hturn] at hturn'
      cases hturn'
      rw [ih hrest]

theorem Answer.Leaves.unique {a : Answer} (h : a.Leaves r) (h' : a.Leaves r') : r = r' := by
  cases h with
  | report =>
    cases h'
    rfl
  | session hs =>
    cases h' with
    | session hs' => rw [hs.unique hs']

theorem Report.after_after (r : Report) (first second : String) :
    (r.after second).after first = r.after (first ++ second) := by
  simp [Report.after, String.append_assoc]

theorem Report.after_empty (r : Report) : r.after "" = r := by
  simp [Report.after]

/-! ### Runs that end -/

theorem Session.turn_of_halted (h : m.step = (.halted halt, n)) (delay : Duration) :
    Session.turn ⟨m, delay⟩ = .ended (closing n halt) := by
  rw [Session.turn, h]

theorem Session.turn_of_moved (h : m.step = (.moved, n)) (delay : Duration) :
    Session.turn ⟨m, delay⟩ = .shown (snapshotLine n.snapshot) ⟨n, delay⟩ := by
  rw [Session.turn, h]

theorem Session.leaves_of_ends (h : Ends m seen halt done) (delay : Duration) :
    Session.Leaves ⟨m, delay⟩ ((closing done halt).after (String.join (seen.map snapshotLine))) := by
  obtain ⟨n, hmoves, hs⟩ := h
  induction hmoves with
  | refl m =>
    rw [List.map_nil, String.join_nil, Report.after_empty]
    exact .ended (turn_of_halted hs delay)
  | move hmove _ ih =>
    rw [List.map_cons, String.join_cons, ← Report.after_after]
    exact .shown (turn_of_moved hmove delay) (ih hs)

theorem leaves_session (h : Ends m seen halt done) (delay : Duration) :
    Answer.Leaves (.session ⟨m, delay⟩) (told m seen halt done) := by
  rw [told, List.map_cons, String.join_cons, ← Report.after_after]
  exact .session (Session.leaves_of_ends h delay)

theorem Session.Leaves.exists_ends (h : s.Leaves r) : ∃ seen halt done, Ends s.machine seen halt done := by
  induction h with
  | @ended s r hturn =>
    rcases s.machine.halts_or_moves with ⟨halt, n, hs⟩ | ⟨n, hs⟩
    · exact ⟨[], halt, n, s.machine, .refl _, hs⟩
    · rw [turn_of_moved hs] at hturn
      cases hturn
  | @shown s next line r hturn _ ih =>
    rcases s.machine.halts_or_moves with ⟨halt, n, hs⟩ | ⟨n, hs⟩
    · rw [turn_of_halted hs] at hturn
      cases hturn
    · rw [turn_of_moved hs] at hturn
      obtain ⟨-, rfl⟩ := Turn.shown.inj hturn
      obtain ⟨seen, halt, done, last, hmoves, hlast⟩ := ih
      exact ⟨_, halt, done, last, .move hs hmoves, hlast⟩

/-- The report on the whole paced run is the one that its turns leave, and there is none if they leave none. -/
theorem Session.report?_eq_some_iff {d : Diagram} (h : Reachable (Tapeworks.compile d).table s.machine) :
    s.report? = some r ↔ (Answer.session s).Leaves r := by
  have hreport : ∀ {seen halt done}, Ends s.machine seen halt done → s.report? = some (told s.machine seen halt done) := by
    intro seen halt done hends
    simp only [report?, h.pacedToEnd_of_ends hends, Option.map_some, told, List.map_cons, String.join_cons, opening]
  constructor
  · intro hsome
    obtain ⟨halt, hhalt, -⟩ := Option.map_eq_some_iff.mp hsome
    obtain ⟨seen, done, hends⟩ := exists_ends hhalt
    rw [hreport hends] at hsome
    cases hsome
    exact leaves_session hends s.delay
  · intro hleaves
    cases hleaves with
    | session hs =>
      obtain ⟨seen, halt, done, hends⟩ := hs.exists_ends
      rw [hreport hends]
      exact congrArg some ((leaves_session hends s.delay).unique (.session hs))

theorem unpacedReport_eq (h : Ends m seen halt done) (hlimit : m.traceLimit = none) (hnew : m.trace = [])
    (hrun : m.run config.maxSteps = (halt, done)) : unpacedReport m config = told m seen halt done := by
  obtain ⟨n, hmoves, hs⟩ := h
  have htrace : done.trace = seen := by
    rw [step_snd_of_halted hs]
    exact (hmoves.trace hlimit).trans (by rw [hnew, List.nil_append])
  rw [unpacedReport, hrun, told, List.map_cons, String.join_cons]
  dsimp only
  rw [htrace]

theorem exitCode_told : (told m seen halt done).exitCode = 0 ↔ halt = .accepted := by
  cases halt with
  | accepted => exact ⟨fun _ => rfl, fun _ => rfl⟩
  | failed e => exact ⟨nofun, nofun⟩

/-! ### Setting up -/

theorem mapError_eq_ok {ε ε' α : Type} {x : Except ε α} {f : ε → ε'} {a : α} (h : x.mapError f = .ok a) :
    x = .ok a := by
  cases x with
  | error e => cases h
  | ok b =>
    cases h
    rfl

theorem baseInterval_lt_of_loadConfig {path : String}
    (h : (loadConfig files path).mapError Failure.ofConfig = .ok config) : config.baseIntervalMs < Text.wordLimit := by
  have hload := mapError_eq_ok h
  unfold loadConfig at hload
  split at hload
  · cases hload
  · exact Config.baseInterval_lt_of_ofToml hload

/-- The base interval of a run comes from the default or from a file. The speed of the options leaves it alone. -/
theorem baseInterval_lt_of_configFor (h : configFor files options = .ok config) :
    config.baseIntervalMs < Text.wordLimit := by
  have hdefault : Config.default.baseIntervalMs < Text.wordLimit := by decide
  unfold configFor at h
  split at h
  · dsimp only at h
    split at h
    · cases h
      exact hdefault
    · obtain ⟨loaded, hloaded, h⟩ := except_bind_eq_ok h
      cases h
      exact baseInterval_lt_of_loadConfig hloaded
  · dsimp only at h
    split at h
    · obtain ⟨loaded, hloaded, h⟩ := except_bind_eq_ok h
      obtain ⟨speed, -, h⟩ := except_bind_eq_ok h
      cases hloaded
      cases h
      exact hdefault
    · obtain ⟨loaded, hloaded, h⟩ := except_bind_eq_ok h
      obtain ⟨speed, -, h⟩ := except_bind_eq_ok h
      have hbase : loaded.baseIntervalMs < Text.wordLimit := baseInterval_lt_of_loadConfig hloaded
      cases h
      exact hbase

/-- The machine of a run is fresh but for the limit of its trace. -/
theorem setUp_eq_ok (h : setUp files machine options = .ok (m, config)) :
    configFor files options = .ok config ∧
      ∃ d tape fresh, Fresh (Tapeworks.compile d).table tape fresh ∧ m = fresh.setTraceLimit config.traceLimit := by
  obtain ⟨config, hconfig, h⟩ := except_bind_eq_ok h
  obtain ⟨record, -, h⟩ := except_bind_eq_ok h
  obtain ⟨tape, -, h⟩ := except_bind_eq_ok h
  dsimp only at h
  split at h
  · obtain ⟨fresh, hfresh, h⟩ := except_bind_eq_ok h
    cases h
    exact ⟨hconfig, record.diagram, tape, fresh, .new (mapError_eq_ok hfresh), rfl⟩
  · obtain ⟨fresh, hfresh, h⟩ := except_bind_eq_ok h
    cases h
    exact ⟨hconfig, record.diagram, tape, fresh, .startingAt _ (mapError_eq_ok hfresh), rfl⟩

theorem fresh_of_setUp (h : setUp files machine options = .ok (m, config)) (hlimit : config.traceLimit = none) :
    ∃ d tape, Fresh (Tapeworks.compile d).table tape m := by
  obtain ⟨-, d, tape, fresh, hfresh, rfl⟩ := setUp_eq_ok h
  have hsame : fresh.setTraceLimit none = fresh := by
    obtain ⟨s, -, rfl⟩ := hfresh.exists_state
    rfl
  rw [hlimit, hsame]
  exact ⟨d, tape, hfresh⟩

/-! ### Both ways to run -/

/-- A machine is set up before it matters how it is run. -/
theorem setUp_noDelay (files : Files) (machine : String) (options : RunOptions) (noDelay : Bool) :
    setUp files machine { options with noDelay } = setUp files machine options := rfl

theorem perform_run_of_error {f : Failure} (h : setUp files machine options = .error f) (stdin : ByteArray)
    (noDelay : Bool) : perform files stdin (.run machine { options with noDelay }) = .report (.failure f) := by
  rw [perform, runCommand, setUp_noDelay, h]

theorem perform_run_of_ok (h : setUp files machine options = .ok (m, config)) (stdin : ByteArray) (noDelay : Bool) :
    perform files stdin (.run machine { options with noDelay }) =
      if noDelay then .report (unpacedReport m config) else .session ⟨m, config.pacing.delay?.getD Duration.zero⟩ := by
  rw [perform, runCommand, setUp_noDelay, h]

/-- The one report that a run leaves with a pace or without one. If the machine cannot be set up it is that failure
    alone. Else it shows the machine as it stands and after each of the moves that the table makes from there, and what
    the run comes to within the limit; and the pace of the run is one that can be kept. -/
structure LeftByBoth (files : Files) (stdin : ByteArray) (machine : String) (options : RunOptions) (r : Report) :
    Prop where
  left : ∀ noDelay r', (perform files stdin (.run machine { options with noDelay })).Leaves r' ↔ r' = r
  failed : ∀ f, setUp files machine options = .error f → r = ⟨"", .error f⟩
  tells : ∀ m config, setUp files machine options = .ok (m, config) →
    ∃ c halt done lines, m.run config.maxSteps = (halt, done) ∧ c 0 = m.configuration ∧
      m.table.Course c done.stepCount ∧ done.configuration = c done.stepCount ∧
        Shown c done.stepCount halt lines r
  paced : ∀ m config, setUp files machine options = .ok (m, config) → ∃ delay, config.pacing.delay? = some delay
  accepted : r.exitCode = 0 ↔
    ∃ m config, setUp files machine options = .ok (m, config) ∧ (m.run config.maxSteps).1 = .accepted

theorem leftByBoth_of_error {f : Failure} (h : setUp files machine options = .error f) (stdin : ByteArray) :
    LeftByBoth files stdin machine options (.failure f) where
  left noDelay r' := by
    rw [perform_run_of_error h]
    refine ⟨fun hleaves => hleaves.unique (.report _), ?_⟩
    rintro rfl
    exact .report _
  failed f' h' := by
    rw [h] at h'
    cases h'
    rfl
  tells m config h' := by
    rw [h] at h'
    cases h'
  paced m config h' := by
    rw [h] at h'
    cases h'
  accepted := by
    refine ⟨nofun, ?_⟩
    rintro ⟨m, config, h', -⟩
    rw [h] at h'
    cases h'

theorem leaves_of_ends (h : setUp files machine options = .ok (m, config)) (hends : Ends m seen halt done)
    (hlimit : m.traceLimit = none) (hnew : m.trace = []) (hrun : m.run config.maxSteps = (halt, done))
    (stdin : ByteArray) (noDelay : Bool) :
    (perform files stdin (.run machine { options with noDelay })).Leaves (told m seen halt done) := by
  rw [perform_run_of_ok h]
  cases noDelay with
  | false => exact leaves_session hends _
  | true =>
    rw [if_pos rfl, unpacedReport_eq hends hlimit hnew hrun]
    exact .report _

theorem leftByBoth_of_ends {d : Diagram} {tape : Tape} (h : setUp files machine options = .ok (m, config))
    (hfresh : Fresh (Tapeworks.compile d).table tape m) (hends : Ends m seen halt done)
    (hrun : m.run config.maxSteps = (halt, done)) (stdin : ByteArray) :
    LeftByBoth files stdin machine options (told m seen halt done) := by
  have htraced := hfresh.traced
  have hstart : m.stepCount = 0 ∧ m.trace = [] := by
    obtain ⟨s, -, rfl⟩ := hfresh.exists_state
    exact ⟨rfl, rfl⟩
  have hleaves := leaves_of_ends h hends htraced.traceLimit hstart.2 hrun stdin
  have honly : ∀ m' config', setUp files machine options = .ok (m', config') → m' = m ∧ config' = config := by
    intro m' config' h'
    rw [h] at h'
    cases h'
    exact ⟨rfl, rfl⟩
  exact {
    left := fun noDelay r' => ⟨fun h' => h'.unique (hleaves noDelay), fun h' => h' ▸ hleaves noDelay⟩
    failed := by
      intro f hf
      rw [h] at hf
      cases hf
    tells := by
      intro m' config' h'
      obtain ⟨rfl, rfl⟩ := honly m' config' h'
      obtain ⟨c, hzero, hcourse, hseen, hlast, hcount⟩ :=
        hends.exists_course (htraced.table ▸ Table.deterministic_compile d)
      rw [hstart.1, Nat.zero_add] at hcount
      rw [hstart.1] at hseen
      rw [← hcount] at hcourse hseen hlast
      obtain ⟨lines, hshown⟩ := shown_told hzero.symm hstart.1 hlast halt
      rw [← hseen] at hshown
      exact ⟨c, halt, done, lines, hrun, hzero, hcourse, hlast, hshown⟩
    paced := fun m' config' h' => Config.exists_delay (baseInterval_lt_of_configFor (setUp_eq_ok h').1)
    accepted := by
      rw [exitCode_told]
      constructor
      · rintro rfl
        exact ⟨m, config, h, congrArg Prod.fst hrun⟩
      · rintro ⟨m', config', h', hhalt⟩
        obtain ⟨rfl, rfl⟩ := honly m' config' h'
        rwa [hrun] at hhalt }

theorem LeftByBoth.eq_unpacedReport {stdin : ByteArray} (h : LeftByBoth files stdin machine options r)
    (hsetUp : setUp files machine options = .ok (m, config)) : r = unpacedReport m config := by
  have hleaves : (perform files stdin (.run machine { options with noDelay := true })).Leaves
      (unpacedReport m config) := by
    rw [perform_run_of_ok hsetUp, if_pos rfl]
    exact .report _
  exact ((h.left true _).mp hleaves).symm

/-- Where the whole trace is kept and the run is not given up, a run leaves one report with a pace or without one. -/
theorem exists_leftByBoth (files : Files) (stdin : ByteArray) (machine : String) (options : RunOptions)
    (h : ∀ m config, setUp files machine options = .ok (m, config) →
      config.traceLimit = none ∧ (m.run config.maxSteps).1 ≠ .failed (.stepLimitExceeded config.maxSteps)) :
    ∃ r, LeftByBoth files stdin machine options r := by
  cases hsetUp : setUp files machine options with
  | error f => exact ⟨_, leftByBoth_of_error hsetUp stdin⟩
  | ok parts =>
    obtain ⟨m, config⟩ := parts
    obtain ⟨hlimit, hgiven⟩ := h m config hsetUp
    obtain ⟨d, tape, hfresh⟩ := fresh_of_setUp hsetUp hlimit
    have hrun : m.run config.maxSteps = ((m.run config.maxSteps).1, (m.run config.maxSteps).2) := rfl
    obtain ⟨seen, hends⟩ := exists_ends_of_runWithin hrun hgiven
    exact ⟨_, leftByBoth_of_ends hsetUp hfresh hends hrun stdin⟩

def noFiles : Files := fun _ => .error .notFound

def evenAOn (input : String) : Machine :=
  .inState Library.EvenA.table (.ofInput input.toList Tape.defaultLength) Library.EvenA.even

theorem resolve_evenA : resolve noFiles "even-a" = .ok ⟨"even-a", Library.evenA⟩ := by
  rw [resolve, Library.named_evenA]
  rfl

theorem setUp_evenA (input : String) : setUp noFiles "even-a" { tape := input } = .ok (evenAOn input, .default) := by
  have hhead : ∀ cells, (Tape.ofCells cells).setHead 0 = .ok (.ofCells cells) := fun cells => by
    cases cells <;> rfl
  have htape : (Tape.ofInput input.toList Config.default.tapeLength).setHead 0 =
      .ok (.ofInput input.toList Tape.defaultLength) := hhead _
  rw [setUp, resolve_evenA]
  change (((Tape.ofInput input.toList Config.default.tapeLength).setHead 0).mapError Failure.ofRun >>= _) = _
  rw [htape]
  rfl

/-- Without any files, the built-in machine accepts two `a`s in both ways and stops at the blank behind a single one. -/
theorem exists_leftByBoth_evenA :
    (∃ r, LeftByBoth noFiles .empty "even-a" { tape := "aa" } r ∧ r.exitCode = 0 ∧ r.stderr = none ∧
      r.stdout = String.join
        ["    0     1  [a]a________________________________________________\n",
          "    1     2  a[a]________________________________________________\n",
          "    2     1  aa[_]_______________________________________________\n",
          "    3     3  aa_[_]______________________________________________\n"] ++
        "\nAccepted in state 3 after 3 steps.\n") ∧
    ∃ r, LeftByBoth noFiles .empty "even-a" { tape := "a" } r ∧ r.exitCode = 1 ∧
      r.stderr = some "Error: machine halted after 1 steps: no rule in state 2 reads '_'" ∧
      r.stdout = String.join
        ["    0     1  [a]_________________________________________________\n",
          "    1     2  a[_]________________________________________________\n"] := by
  have hleft : ∀ input, ((evenAOn input).run 10000).1 ≠ .failed (.stepLimitExceeded 10000) →
      ∃ r, LeftByBoth noFiles .empty "even-a" { tape := input } r ∧
        r = unpacedReport (evenAOn input) .default := fun input hgiven => by
    obtain ⟨r, hr⟩ := exists_leftByBoth noFiles .empty "even-a" { tape := input } fun m config h => by
      rw [setUp_evenA] at h
      cases h
      exact ⟨rfl, hgiven⟩
    exact ⟨r, hr, hr.eq_unpacedReport (setUp_evenA input)⟩
  obtain ⟨r, hr, rfl⟩ := hleft "aa" (by decide)
  obtain ⟨r', hr', rfl⟩ := hleft "a" (by decide)
  exact ⟨⟨_, hr, rfl, rfl, by decide +kernel⟩, _, hr', rfl, by decide +kernel, by decide +kernel⟩

end Tapeworks.CommandLine
