import Bubbly.Api.Importer

/-!
# The apply command

`bubbly apply -f FILE` sets up the configuration, checks its command line (`Validate`: no
positional argument, a filename) and runs `bubbly.Apply` on the file: a parser made from the file,
its `Parse`, and then the `Apply` of each `pipeline_run` resource in the order the parser lists
them, up to the first whose output holds an error. When the command succeeds it prints the result.
The parser, the configuration and a pipeline run's own `Apply` are not among the sources, and are
parameters here; a pipeline run may change the parser, whose context the next one is given.

**Theorem (`apply_first_failure`).** `Apply` applies the pipeline runs in order, up to the first
that fails and no further. Each run is recorded with the output its `Apply` gives on the parser
the runs before it left (`Applies`). `Apply` returns nil exactly when the file parses and every run
succeeds, all of them applied; otherwise the error is the parser's or names the last run applied,
which failed, every run before it having succeeded. It panics only at a resource that is not a
pipeline run.

**Theorem (`apply_command_result`).** The command returns nil exactly when the configuration is
set up, the command line passes `Validate` and `Apply` returns nil. It prints only then, and what it
prints is always `Apply result: true`: the `false` that `Run` records on a failure never reaches
`Print`. A command line that `Validate` rejects applies no pipeline run.
-/

namespace Bubbly

section Apply

variable {P R Run : Type} (newParserFromFilename : String → Except String P)
  (parse : P → Except String P) (pipelineRunKinds : P → List R)
  (asPipelineRun : R → Option Run) (runName : Run → String)
  (applyRun : Run → P → ResourceOutput × P)

def pipelineRunError (run : Run) (e : String) : String :=
  "Failed to apply pipeline_run \"" ++ runName run ++ "\": " ++ e

/-- The loop of `Apply` over the `pipeline_run` resources, from the parser `p`: each run applied,
in order, with its output, and the error returned; `none` where the type assertion to
`core.PipelineRun` panics. `applyRun` is a run's `Apply` on `p.Context(cty.NilVal)`, with the
parser as the run leaves it. -/
def applyPipelineRuns : List R → P → Option (List (Run × ResourceOutput) × Option String)
  | [], _ => some ([], none)
  | resource :: rest, p => do
    let pipelineRun ← asPipelineRun resource
    let (out, p) := applyRun pipelineRun p
    match out.error with
    | some e => some ([(pipelineRun, out)], some (pipelineRunError runName pipelineRun e))
    | none =>
      (applyPipelineRuns rest p).map fun (applied, err) => ((pipelineRun, out) :: applied, err)

/-- `bubbly.Apply`: the pipeline runs applied, with their outputs, and the error returned; `none`
where it panics. Its server configuration is not read. -/
def Apply (filename : String) : Option (List (Run × ResourceOutput) × Option String) :=
  match newParserFromFilename filename with
  | .error e => some ([], some ("Failed to create parser: " ++ e))
  | .ok p =>
    match parse p with
    | .error e => some ([], some ("Failed to decode parser: " ++ e))
    | .ok p => applyPipelineRuns asPipelineRun runName applyRun (pipelineRunKinds p) p

/-- The runs of `applied` are applied in turn from the parser `p`: each output is what the run's
`Apply` gives on the parser the runs before it left. -/
def Applies : P → List (Run × ResourceOutput) → Prop
  | _, [] => True
  | p, (run, out) :: rest => (applyRun run p).1 = out ∧ Applies (applyRun run p).2 rest

/-- What the loop may return from the parser `p` on the resources `rs`: the first resources, as
pipeline runs, applied in turn from `p`, and either all of them, without error, and nil, or the
error of the last one, every one before it without error. -/
def LoopResult (p : P) (rs : List R) (applied : List (Run × ResourceOutput)) :
    Option String → Prop
  | none => Applies applyRun p applied ∧ applied.map (some ·.1) = rs.map asPipelineRun ∧
      ∀ x ∈ applied, x.2.error = none
  | some m => Applies applyRun p applied ∧ ∃ pre run out e, applied = pre ++ [(run, out)] ∧
      applied.map (some ·.1) = (rs.take applied.length).map asPipelineRun ∧
      (∀ x ∈ pre, x.2.error = none) ∧ out.error = some e ∧
      m = pipelineRunError runName run e

theorem LoopResult.cons {p : P} {r : R} {rs : List R} {run : Run}
    {applied : List (Run × ResourceOutput)} {err : Option String} (hr : asPipelineRun r = some run)
    (hout : (applyRun run p).1.error = none)
    (h : LoopResult asPipelineRun runName applyRun (applyRun run p).2 rs applied err) :
    LoopResult asPipelineRun runName applyRun p (r :: rs) ((run, (applyRun run p).1) :: applied)
      err := by
  cases err with
  | none => exact ⟨⟨rfl, h.1⟩, by simp [hr, h.2.1], by simpa [hout] using h.2.2⟩
  | some m =>
    obtain ⟨happ, pre, run', out', e, rfl, hmap, hpre, he, rfl⟩ := h
    refine ⟨⟨rfl, happ⟩, (run, _) :: pre, run', out', e, rfl, ?_, by simpa [hout] using hpre, he,
      rfl⟩
    simpa [hr] using hmap

/-- **The loop.** Whatever the loop returns is a `LoopResult`. -/
theorem loopResult_applyPipelineRuns : ∀ (rs : List R) (p : P) {applied err},
    applyPipelineRuns asPipelineRun runName applyRun rs p = some (applied, err) →
      LoopResult asPipelineRun runName applyRun p rs applied err
  | [], _, _, _, h => by
    cases h
    exact ⟨trivial, rfl, by simp⟩
  | r :: rs, p, applied, err, h => by
    simp only [applyPipelineRuns, Option.bind_eq_bind, Option.bind_eq_some] at h
    obtain ⟨run, hr, h⟩ := h
    cases hout : (applyRun run p).1.error with
    | some e =>
      simp only [hout, Option.some.injEq, Prod.mk.injEq] at h
      obtain ⟨rfl, rfl⟩ := h
      exact ⟨⟨rfl, trivial⟩, [], run, _, e, rfl, by simp [hr], by simp, hout, rfl⟩
    | none =>
      simp only [hout, Option.map_eq_some'] at h
      obtain ⟨⟨applied', err'⟩, h', heq⟩ := h
      cases heq
      exact (loopResult_applyPipelineRuns rs _ h').cons asPipelineRun runName applyRun hr hout

theorem applyPipelineRuns_isSome : ∀ (rs : List R) (p : P),
    (∀ r ∈ rs, (asPipelineRun r).isSome) →
      (applyPipelineRuns asPipelineRun runName applyRun rs p).isSome
  | [], _, _ => rfl
  | r :: rs, p, h => by
    obtain ⟨run, hr⟩ := Option.isSome_iff_exists.mp (h r (List.mem_cons_self r rs))
    have hrest := applyPipelineRuns_isSome rs (applyRun run p).2 fun r' hr' => h r' (by simp [hr'])
    simp only [applyPipelineRuns, Option.bind_eq_bind, hr, Option.some_bind]
    split <;> simp [hrest]

/-- **`Apply` stops at the first failure.** Whatever `Apply` returns is the parser's error, with
no pipeline run applied, or what the loop returns on the resources of the parsed file; and it
returns whenever every resource it lists as a pipeline run is one. -/
theorem apply_first_failure (filename : String) :
    (∀ applied err, Apply newParserFromFilename parse pipelineRunKinds asPipelineRun runName applyRun
        filename = some (applied, err) →
      applied = [] ∧ (∃ e, err = some ("Failed to create parser: " ++ e) ∨
        err = some ("Failed to decode parser: " ++ e)) ∨
      ∃ p₀ p, newParserFromFilename filename = .ok p₀ ∧ parse p₀ = .ok p ∧
        LoopResult asPipelineRun runName applyRun p (pipelineRunKinds p) applied err) ∧
    ((∀ p, ∀ r ∈ pipelineRunKinds p, (asPipelineRun r).isSome) →
      (Apply newParserFromFilename parse pipelineRunKinds asPipelineRun runName applyRun
        filename).isSome) := by
  unfold Apply
  cases h₀ : newParserFromFilename filename with
  | error e => exact ⟨fun _ _ h => by cases h; exact .inl ⟨rfl, e, .inl rfl⟩, fun _ => rfl⟩
  | ok p₀ =>
    dsimp only
    cases hp : parse p₀ with
    | error e =>
      exact ⟨fun _ _ h => by cases h; exact .inl ⟨rfl, e, .inr rfl⟩, fun _ => rfl⟩
    | ok p =>
      exact ⟨fun _ _ h => .inr ⟨p₀, p, rfl, hp, loopResult_applyPipelineRuns _ _ _ _ p h⟩,
        fun hall => applyPipelineRuns_isSome _ _ _ _ p (hall p)⟩

/-- Three pipeline runs, the parser counting the runs applied, and the second run failing with
that count: `Apply` stops at it, and the third is not applied. -/
theorem apply_first_failure_second :
    let applyRun := fun (run : String) (p : Nat) =>
      ((⟨if run = "test" then .failure else .success,
        if run = "test" then some ("exit " ++ toString p) else none, .null⟩ : ResourceOutput), p + 1)
    Apply (fun _ => .ok 0) (fun p => .ok p) (fun _ => ["build", "test", "deploy"]) some id applyRun
        "main.bubbly" =
      some ([("build", ⟨.success, none, .null⟩), ("test", ⟨.failure, some "exit 1", .null⟩)],
        some "Failed to apply pipeline_run \"test\": exit 1") ∧
    LoopResult some id applyRun 0 ["build", "test", "deploy"]
      [("build", ⟨.success, none, .null⟩), ("test", ⟨.failure, some "exit 1", .null⟩)]
      (some "Failed to apply pipeline_run \"test\": exit 1") := by
  intro applyRun
  have happly : Apply (fun _ => .ok 0) (fun p => .ok p) (fun _ => ["build", "test", "deploy"]) some
      id applyRun "main.bubbly" =
      some ([("build", ⟨.success, none, .null⟩), ("test", ⟨.failure, some "exit 1", .null⟩)],
        some "Failed to apply pipeline_run \"test\": exit 1") := rfl
  refine ⟨happly, ?_⟩
  rcases (apply_first_failure (fun _ => .ok 0) (fun p => .ok p) (fun _ => ["build", "test", "deploy"])
    some id applyRun "main.bubbly").1 _ _ happly with ⟨hnil, -⟩ | ⟨_, _, h₀, hp, hl⟩
  · cases hnil
  · cases h₀
    cases hp
    exact hl

end Apply

section Command

variable {C S P R Run : Type} (setupConfigs : Except String C) (serverConfig : C → Option S)
  (usageErrorf : String → String) (suggestBubblyResources : String)
  (newParserFromFilename : String → Except String P) (parse : P → Except String P)
  (pipelineRunKinds : P → List R) (asPipelineRun : R → Option Run) (runName : Run → String)
  (applyRun : Run → P → ResourceOutput × P)

/-- `ApplyOptions`, with the fields its methods read and write. -/
structure ApplyOptions (C : Type) where
  Config : C
  Filename : String
  Args : List String
  Result : Bool

def formatArgs (args : List String) : String :=
  "[" ++ " ".intercalate args ++ "]"

/-- `o.Validate`: the error it returns. `usageErrorf` is `cmdutil.UsageErrorf` on the command. -/
def ApplyOptions.validate (o : ApplyOptions C) : Option String :=
  if o.Args.length ≠ 0 then some (usageErrorf ("Unexpected args: " ++ formatArgs o.Args))
  else if o.Filename = "" then
    some ("you must specify the filename or directory with -f " ++ suggestBubblyResources)
  else none

/-- `o.Run`: the options as it leaves them, the pipeline runs `bubbly.Apply` applied, and the
error returned; `none` where it panics, on a nil server configuration or in `Apply`. -/
def ApplyOptions.run (o : ApplyOptions C) :
    Option (ApplyOptions C × List (Run × ResourceOutput) × Option String) := do
  let _ ← serverConfig o.Config
  let (applied, err) ← Apply newParserFromFilename parse pipelineRunKinds asPipelineRun runName
    applyRun o.Filename
  match err with
  | some e =>
    some ({ o with Result := false }, applied, some ("failed to apply configuration: " ++ e))
  | none => some ({ o with Result := true }, applied, none)

def ApplyOptions.print (o : ApplyOptions C) : String :=
  "Apply result: " ++ toString o.Result ++ "\n"

/-- What a run of the command leaves: the error `RunE` returns, what it printed, and the pipeline
runs applied with their outputs. -/
structure CommandRun (Run : Type) where
  err : Option String
  out : String
  applied : List (Run × ResourceOutput)

/-- `RunE` of `bubbly apply`, on the options as the flags leave them and the positional arguments;
`none` where it panics. `Resolve` returns nil. -/
def runE (o : ApplyOptions C) (args : List String) : Option (CommandRun Run) :=
  match setupConfigs with
  | .error e => some ⟨some ("failed to set up configs: " ++ e), "", []⟩
  | .ok config =>
    let o := { o with Config := config, Args := args }
    match o.validate usageErrorf suggestBubblyResources with
    | some e => some ⟨some e, "", []⟩
    | none =>
      (o.run serverConfig newParserFromFilename parse pipelineRunKinds asPipelineRun runName
        applyRun).map fun (o, applied, err) =>
          match err with
          | some e => ⟨some e, "", applied⟩
          | none => ⟨none, o.print, applied⟩

theorem validate_eq_none_iff (o : ApplyOptions C) :
    o.validate usageErrorf suggestBubblyResources = none ↔ o.Args = [] ∧ o.Filename ≠ "" := by
  unfold ApplyOptions.validate
  by_cases h₁ : o.Args = [] <;> by_cases h₂ : o.Filename = "" <;> simp [h₁, h₂]

theorem ApplyOptions.run_eq_some {o o' : ApplyOptions C} {applied err}
    (h : o.run serverConfig newParserFromFilename parse pipelineRunKinds asPipelineRun runName
      applyRun = some (o', applied, err)) :
    ∃ err', Apply newParserFromFilename parse pipelineRunKinds asPipelineRun runName applyRun
        o.Filename = some (applied, err') ∧
      err = err'.map ("failed to apply configuration: " ++ ·) ∧ o'.Result = err'.isNone := by
  simp only [ApplyOptions.run, Option.bind_eq_bind, Option.bind_eq_some] at h
  obtain ⟨_, -, ⟨applied', err'⟩, happly, h⟩ := h
  refine ⟨err', ?_⟩
  cases err' <;> simp only [Option.some.injEq, Prod.mk.injEq] at h <;>
    obtain ⟨rfl, rfl, rfl⟩ := h <;> simp [happly]

/-- **What the command prints.** `RunE` returns nil exactly when the configuration is set up,
the command line passes `Validate` and `Apply` returns nil; it prints only then, always
`Apply result: true`; and a command line that `Validate` rejects applies no pipeline run. -/
theorem apply_command_result (o : ApplyOptions C) (args : List String) (c : CommandRun Run)
    (h : runE setupConfigs serverConfig usageErrorf suggestBubblyResources newParserFromFilename
      parse pipelineRunKinds asPipelineRun runName applyRun o args = some c) :
    (c.err = none ↔ ∃ config, setupConfigs = .ok config ∧ args = [] ∧ o.Filename ≠ "" ∧
      Apply newParserFromFilename parse pipelineRunKinds asPipelineRun runName applyRun
        o.Filename = some (c.applied, none)) ∧
    c.out = (if c.err = none then "Apply result: true\n" else "") ∧
    (∀ config, setupConfigs = .ok config →
      (⟨config, o.Filename, args, o.Result⟩ : ApplyOptions C).validate usageErrorf
        suggestBubblyResources ≠ none → c.applied = []) := by
  unfold runE at h
  cases hc : setupConfigs with
  | error e =>
    rw [hc] at h
    cases h
    simp
  | ok config =>
    rw [hc] at h
    simp only at h
    split at h
    · next e hv =>
      cases h
      have hbad : ¬ (args = [] ∧ o.Filename ≠ "") := fun hok => by
        rw [(validate_eq_none_iff usageErrorf suggestBubblyResources _).mpr hok] at hv
        cases hv
      exact ⟨⟨fun h => (by cases h), fun ⟨_, _, ha, hf, _⟩ => (hbad ⟨ha, hf⟩).elim⟩,
        rfl, fun _ _ _ => rfl⟩
    · next hv =>
      obtain ⟨ha, hf⟩ := (validate_eq_none_iff usageErrorf suggestBubblyResources _).mp hv
      obtain ⟨⟨o', applied, err⟩, hrun, rfl⟩ := Option.map_eq_some'.mp h
      obtain ⟨err', happly, rfl, hres⟩ := ApplyOptions.run_eq_some _ _ _ _ _ _ _ hrun
      refine ⟨?_, ?_, fun _ hc' hn => (hn (by cases hc'; exact hv)).elim⟩
      · cases err' <;> simp_all
      · cases err' <;>
          simp only [ApplyOptions.print, hres, Option.map_some', Option.map_none'] <;> rfl

/-- A clean command line on a file whose one pipeline run succeeds prints `Apply result: true`. -/
theorem apply_command_result_clean :
    runE (.ok ()) some id "" (fun _ => .ok ()) (fun _ => .ok ()) (fun _ => ["build"]) some id
        (fun _ _ => (⟨.success, none, .null⟩, ())) ⟨(), "main.bubbly", [], false⟩ [] =
      some ⟨none, "Apply result: true\n", [("build", ⟨.success, none, .null⟩)]⟩ ∧
    "Apply result: true\n" = if (none : Option String) = none then "Apply result: true\n" else "" :=
  ⟨rfl, (apply_command_result (.ok ()) some id "" (fun _ => .ok ()) (fun _ => .ok ())
    (fun _ => ["build"]) some id (fun _ _ => (⟨.success, none, .null⟩, ()))
    ⟨(), "main.bubbly", [], false⟩ []
    ⟨none, "Apply result: true\n", [("build", ⟨.success, none, .null⟩)]⟩ rfl).2.1⟩

end Command

end Bubbly
