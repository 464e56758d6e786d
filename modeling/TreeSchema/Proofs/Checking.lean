import TreeSchema.Proofs.AnyName
import TreeSchema.Proofs.CommandRun
import TreeSchema.Proofs.Naming
import TreeSchema.Proofs.ReportText
/-
  Checking documents

  A check judges its documents one after another. One validator goes through
  all of them, with what it holds of the last, a count and a list of reports,
  and the first document that cannot be loaded ends it. The verdicts are
  still those of a validator that has seen no other document: each document
  is reported with what such a validator finds in it, and the exit code says
  whether it finds nothing in any of them. The JSON report is told by its
  text, which reads back to it (`read_checkReport`).

  That a validator comes to a verdict at all rests on the schema being one
  that compiles, under whatever name (`Schema.exists_violations`).
-/

namespace TreeSchema.Command

open File Outcome Validation

/-- What a validator that has judged nothing before finds in a document. -/
def afresh (v : Validator) (document : Document) : List Violation :=
  ((Session.start v).judge document).held

/-- A document with what such a validator finds in it. -/
def judgementBy (v : Validator) (path : String) (document : Document) : Judgement :=
  { path, violations := afresh v document }

theorem afresh_eq (v : Validator) (document : Document) :
    afresh v document = (v.violations? document.node).getD [] :=
  Work.held_judge (Session.start v) document

/-! ## The documents in order -/

section
variable {w : Workspace} {v : Validator}

theorem judgeAll_of_error {path : String} {fault : DocumentFault}
    (h : w.readDocument path = .error fault) (others : List String) :
    judgeAll w v (path :: others) = ([], some fault) := by
  rw [judgeAll, h]

theorem judgeAll_of_ok {path : String} {document : Document}
    (h : w.readDocument path = .ok document) (others : List String) :
    judgeAll w v (path :: others) =
      (judgementBy v path document :: (judgeAll w v others).1, (judgeAll w v others).2) := by
  rw [judgeAll, h, judgementBy, afresh_eq]

/-- Documents that all load are judged each by itself. -/
theorem judgeAll_of_loaded {paths : List String} {documents : List Document}
    (h : List.Forall₂ (fun path document => w.readDocument path = .ok document) paths documents) :
    judgeAll w v paths = (List.zipWith (judgementBy v) paths documents, none) := by
  induction h with
  | nil => rfl
  | cons hload _ ih => rw [judgeAll_of_ok hload, ih, List.zipWith_cons_cons]

/-- Nothing is found amiss just if every document loads and a validator that
has judged nothing before finds nothing in it. -/
theorem judgeAll_spotless_iff (paths : List String) :
    ((judgeAll w v paths).2 = none ∧ ∀ j ∈ (judgeAll w v paths).1, j.violations = []) ↔
      ∀ path ∈ paths, ∃ document, w.readDocument path = .ok document ∧ afresh v document = [] := by
  induction paths with
  | nil => simp [judgeAll]
  | cons path others ih =>
    rw [List.forall_mem_cons, ← ih]
    cases hload : w.readDocument path with
    | error fault =>
      rw [judgeAll_of_error hload]
      simp
    | ok document =>
      rw [judgeAll_of_ok hload]
      simp only [List.forall_mem_cons, judgementBy, Except.ok.injEq, exists_eq_left']
      exact and_left_comm

end

theorem exitCode_checked_eq_zero_iff (judgements : List Judgement)
    (stopped : Option DocumentFault) :
    (checked judgements stopped).exitCode = 0 ↔
      stopped = none ∧ ∀ j ∈ judgements, j.violations = [] := by
  cases stopped with
  | some fault =>
    have hcode : (checked judgements (some fault)).exitCode = 1 := rfl
    simp [hcode]
  | none =>
    rw [Work.exitCode_checked]
    cases hall : judgements.all (·.violations.isEmpty) <;> simpa using hall

theorem exitCode_checked_cases (judgements : List Judgement) (stopped : Option DocumentFault) :
    (checked judgements stopped).exitCode = 0 ∨ (checked judgements stopped).exitCode = 1 := by
  have hcode : (checked judgements stopped).exitCode =
    if stopped.isNone && judgements.all (·.violations.isEmpty) then 0 else 1 := rfl
  rw [hcode]
  split
  · exact Or.inl rfl
  · exact Or.inr rfl

/-! ## What is printed -/

section
variable {p : Presentation} {w : Workspace} (judgements : List Judgement)

theorem response_checked_text (hformat : p.format = .text) (hquiet : p.quiet = false) :
    (Console.response { files := w } p (.checked judgements none, w)).output =
        "".intercalate (judgements.map acceptedText) ∧
      (Console.response { files := w } p (.checked judgements none, w)).errors =
        "".intercalate (judgements.map rejectedText) := by
  unfold Console.response
  simp [Work.output_checked, Work.errors_checked, Work.linesFor, hformat, hquiet]

theorem response_checked_json (hformat : p.format = .json) :
    (Console.response { files := w } p (.checked judgements none, w)).errors = "" ∧
      (Console.response { files := w } p (.checked judgements none, w)).output =
        prettyLine (checkReport judgements) := by
  unfold Console.response
  simp [Work.output_checked, Work.errors_checked, Work.linesFor, hformat]

end

/-! ## Reports -/

section
variable {depth : Nat}

theorem readable_violationReport (v : Violation) :
    Json.Readable (depth + 3) (violationReport v) := by
  have hkeys : List.Pairwise (· < ·) ["expected", "found", "path", "rule"] := by decide
  refine .object (Nat.succ_ne_zero _) hkeys ?_
  simp only [List.forall_mem_cons]
  refine ⟨.array (Nat.succ_ne_zero _) ?_, .string _, .string _, .string _, List.forall_mem_nil _⟩
  exact List.forall_mem_map.mpr fun text _ => .string text

theorem readable_judgementReport (j : Judgement) :
    Json.Readable (depth + 5) (judgementReport j) := by
  have hkeys : List.Pairwise (· < ·) ["document", "errors", "valid"] := by decide
  refine .object (Nat.succ_ne_zero _) hkeys ?_
  simp only [List.forall_mem_cons]
  refine ⟨.string _, .array (Nat.succ_ne_zero _) ?_, .bool _, List.forall_mem_nil _⟩
  exact List.forall_mem_map.mpr fun v _ => readable_violationReport v

theorem readable_checkReport (judgements : List Judgement) :
    Json.Readable (depth + 7) (checkReport judgements) := by
  have hkeys : List.Pairwise (· < ·) ["documents", "valid"] := by decide
  refine .object (Nat.succ_ne_zero _) hkeys ?_
  simp only [List.forall_mem_cons]
  refine ⟨.array (Nat.succ_ne_zero _) ?_, .bool _, List.forall_mem_nil _⟩
  exact List.forall_mem_map.mpr fun j _ => readable_judgementReport j

end

/-- What is printed of a report reads back to it. -/
theorem read_checkReport (judgements : List Judgement) :
    Json.read (prettyLine (checkReport judgements)) = .ok (checkReport judgements) :=
  Json.read_pretty (@readable_checkReport 121 judgements)

section
variable (v : Validator) {paths : List String} {documents : List Document}

/-- The report on documents that are judged each by itself. -/
theorem checkReport_zipWith (h : paths.length = documents.length) :
    checkReport (List.zipWith (judgementBy v) paths documents) = .object
      [("documents", .array (List.zipWith (fun path document => .object
          [("document", .string path),
           ("errors", .array ((afresh v document).map fun x => .object
             [("expected", .array (x.expected.map .string)), ("found", .string x.found),
              ("path", .string x.path), ("rule", .string x.rule)])),
           ("valid", .bool (afresh v document).isEmpty)]) paths documents)),
       ("valid", .bool (documents.all fun document => (afresh v document).isEmpty))] := by
  have hall : (List.zipWith (judgementBy v) paths documents).all (·.violations.isEmpty) =
      documents.all fun document => (afresh v document).isEmpty := by
    induction paths generalizing documents with
    | nil =>
      rw [List.length_eq_zero_iff.mp h.symm]
      rfl
    | cons path paths ih =>
      cases documents with
      | nil => cases h
      | cons document documents =>
        rw [List.zipWith_cons_cons, List.all_cons, List.all_cons, ih (Nat.succ.inj h)]
        rfl
  rw [checkReport, hall, List.map_zipWith]
  rfl

theorem map_acceptedText_zipWith :
    (List.zipWith (judgementBy v) paths documents).map acceptedText
      = List.zipWith (fun path document =>
          if (afresh v document).isEmpty then path ++ ": valid\n" else "") paths documents := by
  rw [List.map_zipWith]
  rfl

theorem map_rejectedText_zipWith :
    (List.zipWith (judgementBy v) paths documents).map rejectedText
      = List.zipWith (fun path document =>
          if (afresh v document).isEmpty then ""
          else path ++ ": " ++ toString (afresh v document).length ++ " violation"
            ++ (if (afresh v document).length = 1 then "" else "s") ++ "\n"
            ++ "".intercalate ((afresh v document).map fun x =>
              "  - " ++ (x.path ++ ": unexpected " ++ x.found ++ " in " ++ x.rule ++ ", expected "
                ++ " | ".intercalate x.expected) ++ "\n")) paths documents := by
  rw [List.map_zipWith]
  rfl

end

/-! ## The whole check -/

section
variable {r : Request} {w : Workspace} {schema : SchemaChoice} {paths : List String}
  {config : Config} {text : String} {v : Validator}

/-- A check of a schema that compiles to text that is accepted comes to
judgements. -/
theorem run_check (haction : r.action = .check schema paths)
    (hconfig : readConfig w r.config = .ok config)
    (htext : compileFile w schema.path (config.options schema) = .ok text)
    (hv : Validator.ofText text = .ok v) (e : Environment) :
    r.run e w = Console.response { files := w } r.presentation
      (.checked (judgeAll w v paths).1 (judgeAll w v paths).2, w) := by
  rw [Request.run_eq, outcomeOf, hconfig, haction]
  dsimp only [perform]
  rw [htext]
  dsimp only [check]
  rw [hv]

/-- A validator for a schema that compiles comes to a verdict. -/
theorem validate?_eq_afresh (htext : compileFile w schema.path (config.options schema) = .ok text)
    (hv : Validator.ofText text = .ok v) (document : Document) :
    v.validate? document.node = some (afresh v document) := by
  obtain ⟨source, hcompile⟩ := exists_compile_of_compileFile htext
  obtain ⟨found, hfound⟩ := Schema.exists_violations hcompile hv document.node
  rw [Validator.validate?_eq, afresh_eq, hfound]
  rfl

/-- The verdicts of a check do not leak from one document to another. A
validator that has judged nothing before comes to a verdict on every
document. The exit code is 0 if every document loads and such a validator
finds nothing in it, and else 1. If all documents load, what is reported of
each, in their order, is what such a validator finds in it: in lines, or in
JSON that reads back to the report, where a document is marked as valid if
nothing is found in it, and all of them together if each of them is. -/
theorem check_judges_afresh (haction : r.action = .check schema paths)
    (hconfig : readConfig w r.config = .ok config)
    (htext : compileFile w schema.path (config.options schema) = .ok text)
    (hv : Validator.ofText text = .ok v) (e : Environment) :
    (∀ document : Document, v.validate? document.node = some (afresh v document)) ∧
    ((r.run e w).exitCode = 0 ↔
      ∀ path ∈ paths, ∃ document, w.readDocument path = .ok document ∧ afresh v document = []) ∧
    ((r.run e w).exitCode = 0 ∨ (r.run e w).exitCode = 1) ∧
    ∀ documents : List Document,
      List.Forall₂ (fun path document => w.readDocument path = .ok document) paths documents →
      (r.presentation.format = .text → r.presentation.quiet = false →
        (r.run e w).output = "".intercalate (List.zipWith (fun path document =>
          if (afresh v document).isEmpty then path ++ ": valid\n" else "") paths documents) ∧
        (r.run e w).errors = "".intercalate (List.zipWith (fun path document =>
          if (afresh v document).isEmpty then ""
          else path ++ ": " ++ toString (afresh v document).length ++ " violation"
            ++ (if (afresh v document).length = 1 then "" else "s") ++ "\n"
            ++ "".intercalate ((afresh v document).map fun x =>
              "  - " ++ (x.path ++ ": unexpected " ++ x.found ++ " in " ++ x.rule ++ ", expected "
                ++ " | ".intercalate x.expected) ++ "\n")) paths documents)) ∧
      (r.presentation.format = .json →
        (r.run e w).errors = "" ∧
        ∃ report : Json.Value,
          (r.run e w).output = report.pretty ++ "\n" ∧
          Json.read (r.run e w).output = .ok report ∧
          report = .object
            [("documents", .array (List.zipWith (fun path document => .object
                [("document", .string path),
                 ("errors", .array ((afresh v document).map fun x => .object
                   [("expected", .array (x.expected.map .string)), ("found", .string x.found),
                    ("path", .string x.path), ("rule", .string x.rule)])),
                 ("valid", .bool (afresh v document).isEmpty)]) paths documents)),
             ("valid", .bool (documents.all fun document => (afresh v document).isEmpty))]) := by
  rw [run_check haction hconfig htext hv e]
  refine ⟨fun document => validate?_eq_afresh htext hv document, ?_,
    exitCode_checked_cases _ _, ?_⟩
  · exact (exitCode_checked_eq_zero_iff _ _).trans (judgeAll_spotless_iff paths)
  · intro documents hdocuments
    rw [judgeAll_of_loaded hdocuments]
    constructor
    · intro hformat hquiet
      rw [← map_acceptedText_zipWith, ← map_rejectedText_zipWith]
      exact response_checked_text _ hformat hquiet
    · intro hformat
      obtain ⟨herrors, houtput⟩ := response_checked_json _ hformat
      refine ⟨herrors, _, houtput, ?_, checkReport_zipWith v hdocuments.length_eq⟩
      rw [houtput]
      exact read_checkReport _

end

/-- A schema for one word, with a document that it accepts and one that it
does not. -/
def redWorkspace : Workspace :=
  { here := []
    files := [(["s"], Text.encode "$a: 'red"), (["x"], Text.encode "\"red\""),
      (["y"], Text.encode "\"blue\"")] }

/-- What the schema compiles to. -/
def redText : String :=
  "/* Generated by hashgram. Do not edit. */\n%grammar Schema\n%start scalar.a\n\n%%\n\n" ++
    "scalar.a\n    : \"red\"\n    ;\n"

def redValidator : Validator :=
  { name := "Schema"
    start := "scalar.a"
    rules := [{ lhs := "scalar.a"
                branches := [{ symbols := [.terminal (.literal "red")]
                               first := [.literal "red"]
                               nullable := false }] }] }

/-- A check with the document that is not accepted between the others. -/
def redRequest (format : Format) : Request :=
  { presentation := { format }, config := none
    action := .check { path := "s" } ["x", "y", "x"] }

/-- A document is told by its tokens, which can be compared. -/
theorem readDocument_of_word {w : Workspace} {path : String} {document : Document}
    (h : (w.readDocument path).toOption.map (·.node.word) = some document.node.word) :
    w.readDocument path = .ok document := by
  cases hload : w.readDocument path with
  | error fault =>
    rw [hload] at h
    cases h
  | ok loaded =>
    rw [hload] at h
    rw [Document.ext (Node.word_injective (Option.some.inj h))]

theorem red_check_judges_afresh :
    afresh redValidator (.ofNode (.scalar "red")) = [] ∧
    ∀ e, ((redRequest .text).run e redWorkspace).exitCode = 1 ∧
      ((redRequest .text).run e redWorkspace).output = "x: valid\nx: valid\n" ∧
      ((redRequest .text).run e redWorkspace).errors =
        "y: 1 violation\n  - /: unexpected scalar \"blue\" in scalar.a, expected \"red\"\n" ∧
      Json.read ((redRequest .json).run e redWorkspace).output = .ok (.object
        [("documents", .array
          [.object [("document", .string "x"), ("errors", .array []), ("valid", .bool true)],
           .object
            [("document", .string "y"),
             ("errors", .array [.object
               [("expected", .array [.string "\"red\""]), ("found", .string "scalar \"blue\""),
                ("path", .string "/"), ("rule", .string "scalar.a")]]),
             ("valid", .bool false)],
           .object [("document", .string "x"), ("errors", .array []), ("valid", .bool true)]]),
         ("valid", .bool false)]) := by
  have hsource : redWorkspace.readText "s" = .ok "$a: 'red" := by decide +kernel
  have hcompile : Schema.compile "s" "$a: 'red" {} = .ok redText := by decide +kernel
  have htext : compileFile redWorkspace "s" {} = .ok redText := by
    simp only [compileFile, hsource, hcompile]
  have hv : Validator.ofText redText = .ok redValidator := by decide +kernel
  have hx : redWorkspace.readDocument "x" = .ok (.ofNode (.scalar "red")) :=
    readDocument_of_word (by decide +kernel)
  have hy : redWorkspace.readDocument "y" = .ok (.ofNode (.scalar "blue")) :=
    readDocument_of_word (by decide +kernel)
  have hred : afresh redValidator (.ofNode (.scalar "red")) = [] := by decide +kernel
  have hblue : afresh redValidator (.ofNode (.scalar "blue"))
      = [{ path := "/", found := "scalar \"blue\"", expected := ["\"red\""],
           rule := "scalar.a" }] := by
    decide +kernel
  refine ⟨hred, fun e => ?_⟩
  have hcheck := fun format =>
    @check_judges_afresh (redRequest format) redWorkspace { path := "s" } ["x", "y", "x"] {}
      redText redValidator rfl rfl htext hv e
  obtain ⟨_, hzero, hcode, hreports⟩ := hcheck .text
  have hdocuments : List.Forall₂
      (fun path document => redWorkspace.readDocument path = .ok document) ["x", "y", "x"]
      [.ofNode (.scalar "red"), .ofNode (.scalar "blue"), .ofNode (.scalar "red")] :=
    .cons hx (.cons hy (.cons hx .nil))
  obtain ⟨houtput, herrors⟩ := (hreports _ hdocuments).1 rfl rfl
  obtain ⟨_, report, _, hread, hreport⟩ := ((hcheck .json).2.2.2 _ hdocuments).2 rfl
  refine ⟨hcode.resolve_left fun h => ?_, houtput.trans ?_, herrors.trans ?_, ?_⟩
  · obtain ⟨document, hload, hnone⟩ := hzero.mp h "y" (by decide)
    cases hy.symm.trans hload
    rw [hblue] at hnone
    cases hnone
  · decide +kernel
  · decide +kernel
  · rw [hread, hreport]
    simp only [List.zipWith_cons_cons, List.zipWith_nil_left, List.all_cons, List.all_nil, hred,
      hblue]
    rfl

end TreeSchema.Command
