import CrossCall.Flow.Listing
import CrossCall.Proofs.EntryDependence

/-! The graphs that a bench keeps. What a construction returns depends on the text alone, and for
three of the four kinds it is what the bench shows from then on. A construction of control
dependences that returns nothing leaves the graph of an earlier text in its place. -/
namespace CrossCall.Flow.Bench

/-! ### Returned graphs -/

/-- The control flow of the function that a position stands for. -/
def controlAt (src : Source) (l : Locus) : Option Graph :=
  (functionAt? l).bind fun f => (controlFlow src f).toOption

def controlOf (parse : Parser) (code : String) : Option Graph :=
  (parse code).bind fun p => controlAt ⟨code⟩ ⟨p.root, []⟩

/-- The control dependences of a control-flow graph, if the frontier has an entry. -/
def dependencesOf (cfg : Graph) : Option Graph :=
  (dominanceFrontier (reversedWithExit cfg)).toOption.bind fun df =>
    if df.isEmpty then none else some (Flow.controlDependence (reversedWithExit cfg) df)

/-- What a construction returns, whatever the bench holds. -/
def returned (parse : Parser) (code : String) : EdgeKind → Option Graph
  | .control => controlOf parse code
  | .controlDependence => (controlOf parse code).bind dependencesOf
  | .dataDependence => (controlOf parse code).map Flow.dataDependence
  | .programDependence =>
    ((controlOf parse code).bind dependencesOf).bind fun c =>
      ((controlOf parse code).map Flow.dataDependence).map (Flow.programDependence c)

/-! ### Single constructions -/

theorem run_buildControlAt (src : Source) (l : Locus) (b : Bench) :
    ∃ log, (buildControlAt src l).run b =
    (controlAt src l, { b with control := controlAt src l, log := log }) := by
  unfold buildControlAt controlAt
  cases functionAt? l with
  | none => exact ⟨_, rfl⟩
  | some f =>
    simp only [Option.bind_some]
    cases controlFlow src f with
    | error e => exact ⟨_, rfl⟩
    | ok g => exact ⟨_, rfl⟩

/-- A line reported first changes the report alone. -/
theorem run_announced {α : Type} (announce : Bool) (line : String) (act : BenchM α) (b : Bench) :
    ∃ log, (do
      if announce then report line
      act).run b = act.run { b with log := log } := by
  cases announce with
  | true => exact ⟨_, rfl⟩
  | false => exact ⟨_, rfl⟩

theorem run_buildControl (parse : Parser) (code : String) (b : Bench) :
    ∃ log, (buildControl parse code).run b =
    (controlOf parse code, { b with control := controlOf parse code, log := log }) := by
  obtain ⟨log, hannounced⟩ := run_announced (hasError parse code) _ _ b
  rw [buildControl, hannounced, controlOf]
  cases parse code with
  | none => exact ⟨_, rfl⟩
  | some p => exact run_buildControlAt ⟨code⟩ ⟨p.root, []⟩ _

theorem run_buildControlDependenceOf (cfg : Option Graph) (b : Bench) : ∃ log,
    (buildControlDependenceOf cfg).run b = (cfg.bind dependencesOf,
      { b with
        controlDependence := (cfg.bind dependencesOf).or b.controlDependence
        log := log }) := by
  cases cfg with
  | none => exact ⟨_, rfl⟩
  | some cfg =>
    unfold buildControlDependenceOf frontier dependencesOf
    simp only [Option.bind_some]
    cases dominanceFrontier (reversedWithExit cfg) with
    | error e => exact ⟨_, rfl⟩
    | ok df =>
      simp only [Except.toOption, Option.bind_some, pure_bind]
      cases df.isEmpty with
      | true => exact ⟨_, rfl⟩
      | false => exact ⟨_, rfl⟩

/-- The graph of an earlier construction stays where this one returns none. -/
theorem run_buildControlDependence (parse : Parser) (code : String) (b : Bench) : ∃ log,
    (buildControlDependence parse code).run b = (returned parse code .controlDependence,
      { b with
        control := controlOf parse code
        controlDependence := (returned parse code .controlDependence).or b.controlDependence
        log := log }) := by
  obtain ⟨log, hcontrol⟩ := run_buildControl parse code b
  obtain ⟨log', hdependence⟩ := run_buildControlDependenceOf (controlOf parse code)
    { b with control := controlOf parse code, log := log }
  refine ⟨log', ?_⟩
  rw [buildControlDependence, StateT.run_bind, hcontrol]
  exact hdependence

theorem run_buildDataDependence (parse : Parser) (code : String) (b : Bench) : ∃ log,
    (buildDataDependence parse code).run b = (returned parse code .dataDependence,
      { b with
        control := controlOf parse code
        dataDependence := returned parse code .dataDependence
        log := log }) := by
  obtain ⟨log, hannounced⟩ := run_announced (hasError parse code) _ _ b
  obtain ⟨log', hcontrol⟩ := run_buildControl parse code { b with log := log }
  rw [buildDataDependence, hannounced, StateT.run_bind, hcontrol, returned]
  cases controlOf parse code with
  | none => exact ⟨_, rfl⟩
  | some cfg => exact ⟨_, rfl⟩

theorem run_buildProgramDependence (parse : Parser) (code : String) (b : Bench) : ∃ log,
    (buildProgramDependence parse code).run b = (returned parse code .programDependence,
      { b with programDependence := returned parse code .programDependence, log := log }) := by
  obtain ⟨log, hcdg⟩ := run_buildControlDependence parse code {}
  obtain ⟨log', hddg⟩ := run_buildDataDependence parse code {}
  unfold buildProgramDependence aside
  simp only [hcdg, hddg]
  unfold returned
  cases controlOf parse code with
  | none => exact ⟨_, rfl⟩
  | some cfg =>
    simp only [Option.bind_some, Option.map_some]
    cases dependencesOf cfg with
    | none => exact ⟨_, rfl⟩
    | some c => exact ⟨_, rfl⟩

/-- What a construction returns, what the bench shows of its kind afterwards, and that no other
construction touches the control dependences. -/
theorem run_build (kind : EdgeKind) (parse : Parser) (code : String) (b : Bench) : ∃ b',
    (build kind parse code).run b = (returned parse code kind, b') ∧
      b'.graph kind =
      (if kind = .controlDependence then (returned parse code kind).or b.controlDependence
        else returned parse code kind) ∧
      (kind ≠ .controlDependence → b'.controlDependence = b.controlDependence) := by
  cases kind with
  | control =>
    obtain ⟨log, h⟩ := run_buildControl parse code b
    exact ⟨_, h, rfl, fun _ => rfl⟩
  | controlDependence =>
    obtain ⟨log, h⟩ := run_buildControlDependence parse code b
    exact ⟨_, h, rfl, fun hne => absurd rfl hne⟩
  | dataDependence =>
    obtain ⟨log, h⟩ := run_buildDataDependence parse code b
    exact ⟨_, h, rfl, fun _ => rfl⟩
  | programDependence =>
    obtain ⟨log, h⟩ := run_buildProgramDependence parse code b
    exact ⟨_, h, rfl, fun _ => rfl⟩

/-! ### Sequences of constructions -/

/-- The bench behind some constructions. -/
def after (parse : Parser) (requests : List (EdgeKind × String)) : Bench :=
  requests.foldl (fun b r => ((build r.1 parse r.2).run b).2) {}

/-- The last graph that one of the constructions of control dependences returned. -/
def latest (parse : Parser) (requests : List (EdgeKind × String)) : Option Graph :=
  (requests.filterMap fun r => if r.1 = .controlDependence then returned parse r.2 r.1
    else none).getLast?

theorem latest_concat (parse : Parser) (requests : List (EdgeKind × String))
    (r : EdgeKind × String) :
    latest parse (requests ++ [r]) =
      (if r.1 = .controlDependence then returned parse r.2 r.1 else none).or
      (latest parse requests) := by
  unfold latest
  rw [List.filterMap_append, List.getLast?_append]
  congr 1
  rw [List.filterMap_cons]
  cases (if r.1 = .controlDependence then returned parse r.2 r.1 else none) with
  | none => rfl
  | some g => rfl

theorem controlDependence_after (parse : Parser) (requests : List (EdgeKind × String)) :
    (after parse requests).controlDependence = latest parse requests := by
  induction requests using List.reverseRecOn with
  | nil => rfl
  | append_singleton requests r ih =>
    obtain ⟨b', hrun, hgraph, hother⟩ := run_build r.1 parse r.2 (after parse requests)
    have hafter : after parse (requests ++ [r]) = b' := by
      rw [after, List.foldl_concat, ← after, hrun]
    rw [hafter, latest_concat, ← ih]
    by_cases hkind : r.1 = .controlDependence
    · rw [if_pos hkind] at hgraph ⊢
      rw [← hgraph, hkind, graph]
    · rw [if_neg hkind, Option.none_or, hother hkind]

/-- After any constructions, a further one returns what the text gives. The bench shows just that,
unless it is a construction of control dependences that returns none behind one that returned a
graph; then it shows the last such graph. -/
theorem graph_build_after (parse : Parser) (requests : List (EdgeKind × String)) (kind : EdgeKind)
    (code : String) :
    ∃ b', (build kind parse code).run (after parse requests) = (returned parse code kind, b') ∧
      b'.graph kind =
      (if kind = .controlDependence then (returned parse code kind).or (latest parse requests)
        else returned parse code kind) ∧
      (b'.graph kind = returned parse code kind ↔
        kind ≠ .controlDependence ∨ (returned parse code kind).isSome ∨
        latest parse requests = none) := by
  obtain ⟨b', hrun, hgraph, -⟩ := run_build kind parse code (after parse requests)
  rw [controlDependence_after] at hgraph
  refine ⟨b', hrun, hgraph, ?_⟩
  rw [hgraph]
  by_cases hkind : kind = .controlDependence
  · rw [if_pos hkind]
    cases returned parse code kind with
    | none => simp [hkind]
    | some g => simp
  · simp [hkind]

/-- A listing tells whether there is a graph. -/
theorem edgeListing_some_ne_none (kind : EdgeKind) (g : Graph) :
    edgeListing kind (some g) ≠ edgeListing kind none := by
  intro h
  have hlength := congrArg List.length h
  simp only [edgeListing, List.length_cons, List.length_nil] at hlength
  split at hlength <;> simp at hlength

/-- Knows one text. -/
def guardedStepOnly : Parser :=
  fun text => if text = guardedStep then guardedStepParser text else none

theorem returned_guardedStepOnly (kind : EdgeKind) :
    returned guardedStepOnly guardedStep kind = returned guardedStepParser guardedStep kind := by
  have hsame : guardedStepOnly guardedStep = guardedStepParser guardedStep := if_pos rfl
  unfold returned controlOf
  rw [hsame]

/-- Nothing is returned for a text that cannot be read, but the bench goes on showing the
dependences of the text before it. -/
theorem exists_dependences_kept : ∃ g b', (build .controlDependence guardedStepOnly "").run
    (after guardedStepOnly [(.controlDependence, guardedStep)]) = (none, b') ∧
      b'.graph .controlDependence = some g ∧ g.arcs = [(195659, 171291)] ∧
        edgeListing .controlDependence (b'.graph .controlDependence) ≠
        edgeListing .controlDependence none := by
  obtain ⟨rs, g, -, hg, -, -, harcs⟩ := guardedStep_built
  obtain ⟨b', hrun, hgraph, -⟩ := run_build .controlDependence guardedStepOnly ""
    (after guardedStepOnly [(.controlDependence, guardedStep)])
  have hnone : returned guardedStepOnly "" .controlDependence = none := by
    have hunknown : guardedStepOnly "" = none := if_neg (by decide)
    rw [returned, controlOf, hunknown]
    rfl
  have hlatest : latest guardedStepOnly [(.controlDependence, guardedStep)] = some g := by
    obtain ⟨log, hbuilt⟩ := run_buildControlDependence guardedStepParser guardedStep {}
    have hreturned : returned guardedStepOnly guardedStep .controlDependence = some g := by
      rw [hbuilt] at hg
      rw [returned_guardedStepOnly]
      simpa only using hg
    simp [latest, hreturned]
  rw [if_pos rfl, controlDependence_after, hnone, hlatest, Option.none_or] at hgraph
  refine ⟨g, b', by rw [hrun, hnone], hgraph, harcs, ?_⟩
  rw [hgraph]
  exact edgeListing_some_ne_none _ g

end CrossCall.Flow.Bench
