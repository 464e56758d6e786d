import TreeSchema.Command.Run
import TreeSchema.Proofs.Cursor
/-
  Running a request shows what it comes to

  A command prints as it goes and stops where it cannot go on. Here it is
  shown that this amounts to finding out first what the request comes to, and
  printing after that: the exit code, both texts and the files of a run are
  those of the outcome (`Request.run_eq`).

  Each piece of work is followed through every place where it may stop. The
  loop over the documents carries one validator, one count and one list of
  reports; what it has printed and counted when it ends is what the judgements
  up to there say (`Work.run_checkDocuments`).
-/

namespace TreeSchema.Command

open File Outcome

/-- The console with all that there is to say about an outcome. -/
def Console.showing (c : Console) (p : Presentation) (o : Outcome) : Console :=
  { c with output := c.output ++ o.output p, errors := c.errors ++ o.errors p }

/-- Goes on with what has been found, or shows an outcome and stops. -/
def Console.resultOf {α : Type} (c : Console) (p : Presentation) :
    Except Outcome α → EStateM.Result Nat Console α
  | .ok a => .ok a c
  | .error o => .error o.exitCode (c.showing p o)

def Console.response (c : Console) (p : Presentation) (o : Outcome × Workspace) : Response :=
  { exitCode := o.1.exitCode
    output := c.output ++ o.1.output p
    errors := c.errors ++ o.1.errors p
    files := o.2 }

theorem Console.showing_of_output {c : Console} {p : Presentation} {o : Outcome}
    (h : o.output p = "") :
    c.showing p o = { c with errors := c.errors ++ o.errors p } := by
  simp [Console.showing, h]

theorem Console.response_of_done {c : Console} {p : Presentation} {o : Outcome} {w : Workspace}
    (hcode : o.exitCode = 0) (herrors : o.errors p = "") :
    c.response p (o, w) =
      { exitCode := 0, output := c.output ++ o.output p, errors := c.errors, files := w } := by
  simp [Console.response, hcode, herrors]

theorem Console.response_of_failed {c : Console} {p : Presentation} {o : Outcome} {w : Workspace}
    {code : Nat} (hcode : o.exitCode = code) (houtput : o.output p = "") :
    c.response p (o, w) =
      { exitCode := code, output := c.output, errors := c.errors ++ o.errors p, files := w } := by
  simp [Console.response, hcode, houtput]

namespace Work

/-! ## Single steps -/

@[simp] theorem run_print (text : String) (c : Console) :
    (print text).run c = .ok () { c with output := c.output ++ text } := rfl

@[simp] theorem run_printError (text : String) (c : Console) :
    (printError text).run c = .ok () { c with errors := c.errors ++ text } := rfl

@[simp] theorem run_files (c : Console) : files.run c = .ok c.files c := rfl

@[simp] theorem run_setFiles (w : Workspace) (c : Console) :
    (setFiles w).run c = .ok () { c with files := w } := rfl

@[simp] theorem run_stop {α : Type} (code : Nat) (c : Console) :
    (stop code : Work α).run c = .error code c := rfl

@[simp] theorem run_report (p : Presentation) (message : String) (c : Console) :
    (report p message).run c = .ok () { c with errors := c.errors ++ errorLine p message } := by
  unfold report errorLine
  cases p.quiet with
  | true => simp
  | false => cases p.format <;> simp

@[simp] theorem run_fail {α : Type} (p : Presentation) (message : String) (c : Console) :
    (fail p message : Work α).run c =
      .error 1 { c with errors := c.errors ++ errorLine p message } := by
  simp [fail]

/-- Work that stops ends whatever it is part of. -/
theorem ofResult_bind_of_error {α : Type} {m : Work α} {f : α → Work Unit} {c : Console}
    {p : Presentation} {o : Outcome} (h : m.run c = c.resultOf p (.error o)) :
    Response.ofResult ((m >>= f).run c) = c.response p (o, c.files) := by
  rw [EStateM.run_bind, h]
  rfl

/-- Work that only finds something out leaves the console to what follows. -/
theorem run_bind_of_ok {α : Type} {m : Work α} {f : α → Work Unit} {c : Console}
    {p : Presentation} {a : α} (h : m.run c = c.resultOf p (.ok a)) :
    (m >>= f).run c = (f a).run c := by
  rw [EStateM.run_bind, h]
  rfl

/-! ## Settings and schemas -/

theorem run_settings (p : Presentation) (config : Option String) (c : Console) :
    (settings p config).run c = c.resultOf p (readConfig c.files config) := by
  cases config with
  | none => rfl
  | some path =>
    simp only [settings, readConfig, EStateM.run_bind, run_files]
    cases c.files.readText path with
    | error fault =>
      dsimp only
      rw [run_fail, Console.resultOf, Console.showing_of_output rfl]
      rfl
    | ok text =>
      dsimp only
      cases Config.ofText? text with
      | none =>
        dsimp only
        rw [run_fail, Console.resultOf, Console.showing_of_output rfl]
        rfl
      | some config => rfl

theorem errors_schemaRefused (p : Presentation) (error : Schema.Error) :
    (schemaRefused error).errors p = match p.format with
      | .json => prettyLine error.report
      | .text => if p.quiet then "" else "error: " ++ error.message ++ "\n" := rfl

theorem run_refuse {α : Type} (p : Presentation) (error : Schema.Error) (c : Console) :
    (refuse p error : Work α).run c = c.resultOf p (.error (.schemaRefused error)) := by
  have hcode : (schemaRefused error).exitCode = 1 := rfl
  rw [Console.resultOf, Console.showing_of_output rfl, errors_schemaRefused, hcode]
  unfold refuse
  cases p.format with
  | json => simp
  | text => cases p.quiet <;> simp

theorem run_compiled (p : Presentation) (path : String) (options : Schema.Options)
    (c : Console) :
    (compiled p path options).run c = c.resultOf p (compileFile c.files path options) := by
  simp only [compiled, compileFile, EStateM.run_bind, run_files]
  cases c.files.readText path with
  | error fault => exact run_refuse p _ c
  | ok source =>
    dsimp only
    cases Schema.compile path source options with
    | error error => exact run_refuse p error c
    | ok text => rfl

/-! ## Delivering a grammar -/

theorem output_grammarShown (p : Presentation) (text : String) :
    (grammarShown text).output p = match p.format with
      | .text => text
      | .json => prettyLine (.object [("grammar", .string text)]) := rfl

theorem output_grammarWritten (p : Presentation) (path : String) :
    (grammarWritten path).output p = if p.quiet then "" else
      match p.format with
      | .text => s!"wrote {path}\n"
      | .json => compactLine (.object [("written", .string path)]) := rfl

theorem ofResult_compile (p : Presentation) (e : Environment) (config : Config)
    (schema : SchemaChoice) (out : Option String) (c : Console) :
    Response.ofResult ((compile p schema.path (config.options schema) out).run c) =
      c.response p (perform e c.files config (.compile schema out)) := by
  have hcompiled := run_compiled p schema.path (config.options schema) c
  unfold compile perform
  dsimp only
  cases hfile : compileFile c.files schema.path (config.options schema) with
  | error o =>
    rw [hfile] at hcompiled
    exact ofResult_bind_of_error hcompiled
  | ok text =>
    rw [hfile] at hcompiled
    rw [run_bind_of_ok hcompiled]
    cases out with
    | none =>
      dsimp only [deliver]
      rw [Console.response_of_done rfl rfl, output_grammarShown]
      cases p.format <;> simp [Response.ofResult]
    | some path =>
      simp only [deliver, EStateM.run_bind, run_files]
      cases c.files.writeBytes path (Text.encode text) with
      | error fault =>
        dsimp only
        rw [run_fail, Console.response_of_failed rfl rfl]
        rfl
      | ok changed =>
        dsimp only
        rw [Console.response_of_done rfl rfl, output_grammarWritten]
        cases p.quiet <;> cases p.format <;> simp [Response.ofResult]

/-! ## Judging documents -/

def linesFor (p : Presentation) (line : Judgement → String) (judgements : List Judgement) :
    String :=
  match p.format with
  | .text => if p.quiet then "" else "".intercalate (judgements.map line)
  | .json => ""

/-- The console after some judgements. -/
def judged (c : Console) (p : Presentation) (judgements : List Judgement) : Console :=
  { c with
    output := c.output ++ linesFor p acceptedText judgements
    errors := c.errors ++ linesFor p rejectedText judgements }

/-- What is carried on after some judgements, with the validator's session. -/
def carried (state : Checking) (p : Presentation) (session : Validation.Session)
    (judgements : List Judgement) : Checking :=
  { session
    rejected := state.rejected + judgements.countP fun j => !j.violations.isEmpty
    reports := state.reports ++ match p.format with
      | .text => []
      | .json => judgements.map judgementReport }

theorem intercalate_empty_cons (text : String) (others : List String) :
    "".intercalate (text :: others) = text ++ "".intercalate others := by
  cases others with
  | nil => simp
  | cons next others => rw [String.intercalate_cons_cons, String.append_empty]

theorem linesFor_nil (p : Presentation) (line : Judgement → String) : linesFor p line [] = "" := by
  unfold linesFor
  cases p.format <;> cases p.quiet <;> simp

theorem linesFor_cons (p : Presentation) (line : Judgement → String) (j : Judgement)
    (others : List Judgement) :
    linesFor p line (j :: others) = linesFor p line [j] ++ linesFor p line others := by
  unfold linesFor
  cases p.format <;> cases p.quiet <;> simp [intercalate_empty_cons]

theorem linesFor_json {p : Presentation} (h : p.format = .json) (line : Judgement → String)
    (judgements : List Judgement) : linesFor p line judgements = "" := by
  simp [linesFor, h]

theorem run_forM_printError {α : Type} (text : α → String) (values : List α) (c : Console) :
    (forM values fun value => printError (text value)).run c =
      .ok () { c with errors := c.errors ++ "".intercalate (values.map text) } := by
  induction values generalizing c with
  | nil => simp
  | cons value others ih =>
    rw [List.forM_cons, EStateM.run_bind, run_printError]
    dsimp only
    rw [ih]
    simp [intercalate_empty_cons, String.append_assoc]

/-- The violations that the session holds after a document are those of its
validator on the document, whatever it held before. -/
theorem held_judge (session : Validation.Session) (document : Document) :
    (session.judge document).held = (session.validator.violations? document.node).getD [] := by
  rw [← Validation.Validator.validate?_eq]
  rfl

theorem run_announce (p : Presentation) (j : Judgement) (c : Console) :
    (announce p j.path j.violations).run c = .ok () (judged c p [j]) := by
  unfold announce judged linesFor
  cases p.format with
  | json => simp
  | text =>
    cases p.quiet with
    | true => simp
    | false =>
      cases hempty : j.violations.isEmpty with
      | true => simp [acceptedText, rejectedText, hempty]
      | false =>
        simp [acceptedText, rejectedText, hempty, run_forM_printError, String.append_assoc]

theorem next_eq_carried (state : Checking) (p : Presentation) (session : Validation.Session)
    (j : Judgement) (hheld : session.held = j.violations) :
    state.next p j.path session = carried state p session [j] := by
  unfold Checking.next carried
  cases p.format <;> cases hempty : j.violations.isEmpty <;>
    simp [judgementReport, hheld, hempty]

theorem judged_nil (c : Console) (p : Presentation) : judged c p [] = c := by
  simp [judged, linesFor_nil]

theorem judged_cons (c : Console) (p : Presentation) (j : Judgement) (others : List Judgement) :
    judged c p (j :: others) = judged (judged c p [j]) p others := by
  unfold judged
  rw [linesFor_cons p acceptedText, linesFor_cons p rejectedText]
  simp [String.append_assoc]

theorem carried_nil (state : Checking) (p : Presentation) :
    carried state p state.session [] = state := by
  unfold carried
  cases p.format <;> simp

theorem carried_cons (state : Checking) (p : Presentation) (s s' : Validation.Session)
    (j : Judgement) (others : List Judgement) :
    carried state p s' (j :: others) = carried (carried state p s [j]) p s' others := by
  unfold carried
  cases p.format <;> simp [List.countP_cons, Nat.add_assoc, Nat.add_comm]

/-- How the loop over the documents ends, by the judgements made. -/
def endOf (state : Checking) (p : Presentation) (session : Validation.Session) (c : Console) :
    List Judgement × Option DocumentFault → EStateM.Result Nat Console Checking
  | (judgements, none) => .ok (carried state p session judgements) (judged c p judgements)
  | (judgements, some fault) =>
    .error 1 { judged c p judgements with
      errors := (judged c p judgements).errors ++ errorLine p fault.message }

theorem endOf_cons (state : Checking) (p : Presentation) (s session : Validation.Session)
    (c : Console) (j : Judgement) (judgements : List Judgement) (stopped : Option DocumentFault) :
    endOf (carried state p s [j]) p session (judged c p [j]) (judgements, stopped) =
      endOf state p session c (j :: judgements, stopped) := by
  cases stopped <;> simp only [endOf, carried_cons state p s session j judgements,
    judged_cons c p j judgements]

/-- The loop over the documents, from any state and console: it makes the
judgements of a validator that has judged nothing before. -/
theorem run_checkDocuments (p : Presentation) (documents : List String) (state : Checking)
    (c : Console) :
    ∃ session, (documents.foldlM (checkDocument p) state).run c =
      endOf state p session c (judgeAll c.files state.session.validator documents) := by
  induction documents generalizing state c with
  | nil =>
    refine ⟨state.session, ?_⟩
    rw [judgeAll, endOf, carried_nil, judged_nil]
    rfl
  | cons path others ih =>
    rw [List.foldlM_cons, EStateM.run_bind]
    cases hdocument : c.files.readDocument path with
    | error fault =>
      refine ⟨state.session, ?_⟩
      simp [checkDocument, judgeAll, hdocument, endOf, judged_nil]
    | ok document =>
      let j : Judgement :=
        { path, violations := (state.session.validator.violations? document.node).getD [] }
      have hstep : (checkDocument p state path).run c =
          .ok (carried state p (state.session.judge document) [j]) (judged c p [j]) := by
        have hheld : (state.session.judge document).held = j.violations := held_judge _ document
        simp only [checkDocument, EStateM.run_bind, run_files, hdocument, hheld]
        rw [run_announce p j, ← next_eq_carried state p _ j hheld]
        rfl
      obtain ⟨session, hrest⟩ :=
        ih (carried state p (state.session.judge document) [j]) (judged c p [j])
      refine ⟨session, ?_⟩
      rw [hstep]
      dsimp only
      rw [hrest]
      have hsame : judgeAll (judged c p [j]).files
          (carried state p (state.session.judge document) [j]).session.validator others =
          judgeAll c.files state.session.validator others := rfl
      rw [hsame, judgeAll, hdocument]
      exact endOf_cons state p _ session c j _ _

theorem output_checked (p : Presentation) (judgements : List Judgement)
    (stopped : Option DocumentFault) :
    (checked judgements stopped).output p = match p.format with
      | .text => linesFor p acceptedText judgements
      | .json => if stopped.isSome then "" else prettyLine (checkReport judgements) := by
  unfold linesFor
  cases hformat : p.format <;> simp [Outcome.output, hformat]

theorem errors_checked (p : Presentation) (judgements : List Judgement)
    (stopped : Option DocumentFault) :
    (checked judgements stopped).errors p = linesFor p rejectedText judgements ++
      stopped.elim "" fun fault => errorLine p fault.message := rfl

theorem countP_rejected_eq_zero (judgements : List Judgement) :
    (judgements.countP fun j => !j.violations.isEmpty) = 0 ↔
      judgements.all (·.violations.isEmpty) = true := by
  simp [List.countP_eq_zero]

theorem exitCode_checked (judgements : List Judgement) :
    (checked judgements none).exitCode =
      if judgements.all (·.violations.isEmpty) then 0 else 1 := rfl

theorem ofResult_conclude (p : Presentation) (v : Validation.Validator)
    (session : Validation.Session) (judgements : List Judgement) (c : Console) :
    Response.ofResult ((conclude p (carried { session := .start v } p session judgements)).run
        (judged c p judgements)) = c.response p (.checked judgements none, c.files) := by
  have hcount := countP_rejected_eq_zero judgements
  unfold conclude Console.response carried judged
  rw [output_checked, errors_checked, exitCode_checked]
  cases hall : judgements.all (·.violations.isEmpty) with
  | true =>
    have hzero := hcount.2 hall
    cases hformat : p.format with
    | text => simp [hzero, Response.ofResult]
    | json => simp [hzero, Response.ofResult, linesFor_json hformat, checkReport, hall]
  | false =>
    have hpos : 0 < judgements.countP fun j => !j.violations.isEmpty := by
      apply Nat.pos_of_ne_zero
      intro hzero
      rw [hcount.1 hzero] at hall
      contradiction
    have hbeq := beq_false_of_ne (Nat.ne_of_gt hpos)
    cases hformat : p.format with
    | text => simp [hpos, Response.ofResult]
    | json => simp [hpos, hbeq, Response.ofResult, linesFor_json hformat, checkReport, hall]

theorem ofResult_check (p : Presentation) (e : Environment) (config : Config)
    (schema : SchemaChoice) (documents : List String) (c : Console) :
    Response.ofResult ((check p schema.path (config.options schema) documents).run c) =
      c.response p (perform e c.files config (.check schema documents)) := by
  have hcompiled := run_compiled p schema.path (config.options schema) c
  unfold check perform
  dsimp only
  cases hfile : compileFile c.files schema.path (config.options schema) with
  | error o =>
    rw [hfile] at hcompiled
    exact ofResult_bind_of_error hcompiled
  | ok text =>
    rw [hfile] at hcompiled
    rw [run_bind_of_ok hcompiled]
    dsimp only [Command.check]
    cases Validation.Validator.ofText text with
    | error error =>
      dsimp only
      rw [run_fail, Console.response_of_failed rfl rfl]
      rfl
    | ok v =>
      dsimp only
      obtain ⟨session, hloop⟩ := run_checkDocuments p documents { session := .start v } c
      rw [EStateM.run_bind, hloop]
      have hstart : (Validation.Session.start v).validator = v := rfl
      dsimp only
      rw [hstart]
      rcases judgeAll c.files v documents with ⟨judgements, stopped⟩
      cases stopped with
      | some fault =>
        have hcode : (checked judgements (some fault)).exitCode = 1 := rfl
        simp only [endOf, Response.ofResult, Console.response, hcode, output_checked,
          errors_checked]
        cases hformat : p.format with
        | text => simp [judged, String.append_assoc]
        | json => simp [judged, linesFor_json hformat]
      | none => exact ofResult_conclude p v session judgements c

/-! ## Building and testing -/

theorem output_built (p : Presentation) (artifact : Program.Artifact) :
    (built artifact).output p = if p.quiet then "" else
      match p.format with
      | .text => artifact.output
      | .json =>
        prettyLine (.object
          [("exit_code", .number (.integer artifact.exitCode)),
           ("program", .string artifact.program), ("stdout", .string artifact.output)]) := rfl

theorem ofResult_build (p : Presentation) (e : Environment) (config : Config)
    (schema : SchemaChoice) (program : Option String) (args : List String) (c : Console) :
    Response.ofResult ((build p e schema.path (config.options schema) (program.or config.program)
        (if args.isEmpty then config.args else args)).run c) =
      c.response p (perform e c.files config (.build schema program args)) := by
  have hcompiled := run_compiled p schema.path (config.options schema) c
  unfold build perform
  dsimp only
  cases program.or config.program with
  | none =>
    dsimp only
    rw [run_fail, Console.response_of_failed rfl rfl]
    rfl
  | some program =>
    dsimp only
    cases hfile : compileFile c.files schema.path (config.options schema) with
    | error o =>
      rw [hfile] at hcompiled
      exact ofResult_bind_of_error hcompiled
    | ok text =>
      rw [hfile] at hcompiled
      rw [run_bind_of_ok hcompiled]
      simp only [Command.build, EStateM.run_bind, run_files, run_setFiles]
      generalize Program.Invocation.compile _ e.host e.stagedPath text c.files = compiled
      obtain ⟨result, changed⟩ := compiled
      cases result with
      | ok artifact =>
        dsimp only
        rw [Console.response_of_done rfl rfl, output_built]
        cases p.quiet <;> cases p.format <;> simp [Response.ofResult]
      | error failure =>
        simp only [EStateM.run_bind, run_report]
        rw [Console.response_of_failed rfl rfl]
        rcases failure with _ | _ | ⟨_, code, _⟩
        · rfl
        · rfl
        · cases code <;> rfl

theorem ofResult_test (p : Presentation) (e : Environment) (config : Config) (directory : String)
    (c : Console) :
    Response.ofResult ((test directory).run c) =
      c.response p (perform e c.files config (.test directory)) := by
  simp only [test, perform, EStateM.run_bind, run_files]
  cases c.files.hasEntry directory with
  | false =>
    simp only [Bool.false_eq_true, if_false, EStateM.run_bind, run_printError]
    rw [Console.response_of_failed rfl rfl]
    rfl
  | true =>
    have hcode : ∀ cases, (suiteRun cases).exitCode =
      if Conformance.failures cases = 0 then 0 else 1 := fun _ => rfl
    have houtput : ∀ cases, (suiteRun cases).output p = Conformance.reportText cases := fun _ => rfl
    have herrors : ∀ cases, (suiteRun cases).errors p = "" := fun _ => rfl
    simp only [if_true, EStateM.run_bind, run_print, Console.response, hcode, houtput, herrors]
    by_cases hfailures : Conformance.failures (Conformance.runSuite c.files directory) = 0
    · simp [hfailures, Response.ofResult]
    · simp [hfailures, Nat.pos_of_ne_zero hfailures, Response.ofResult]

end Work

/-- The run of a request shows what the request comes to. -/
theorem Request.run_eq (r : Request) (e : Environment) (w : Workspace) :
    r.run e w =
      Console.response { files := w } r.presentation (outcomeOf e w r.config r.action) := by
  have hsettings := Work.run_settings r.presentation r.config { files := w }
  unfold Request.run Request.work outcomeOf
  dsimp only at hsettings
  cases hconfig : readConfig w r.config with
  | error o =>
    rw [hconfig] at hsettings
    exact Work.ofResult_bind_of_error hsettings
  | ok config =>
    rw [hconfig] at hsettings
    rw [Work.run_bind_of_ok hsettings]
    cases r.action with
    | compile schema out => exact Work.ofResult_compile r.presentation e config schema out _
    | check schema documents => exact Work.ofResult_check r.presentation e config schema documents _
    | build schema program args =>
      exact Work.ofResult_build r.presentation e config schema program args _
    | test directory => exact Work.ofResult_test r.presentation e config directory _

end TreeSchema.Command
