import TreeSchema.Proofs.CommandLine
import TreeSchema.Proofs.CommandRun
/-
  The presentation

  A command line may say how to show an outcome on both sides of the
  command's name, between any other options. `withoutPresentation` takes
  those flags out of a line, and nothing else: an argument that only looks
  like one of them, as the value of another option or after a double hyphen,
  stays. A line is accepted just as well with other flags in their place, and
  asks for the same (`Request.ofArgs_flags`).

  The line with the flags and the line without them are read side by side.
  The reader looks at some values later if the flags are gone, so `Trails`
  compares all options given so far, looked at or not.
-/

namespace TreeSchema.Command

/-! ## Lines without the flags -/

/-- The option whose value the next argument is, after an argument that
stands where options may stand. -/
def valueAfter? (text : String) : Option OptionName :=
  match OptionName.all.find? fun option => option.takesValue && "--" ++ option.long == text with
  | some option => some option
  | none =>
    -- Letters after one hyphen: the value of `-o` follows if it comes last.
    match text.toList with
    | '-' :: c :: rest =>
      if c != '-' && (c :: rest).dropWhile (· != 'o') == ['o'] then some .out else none
    | _ => none

inductive Expected where
  /-- An option, the name of the command or an operand. -/
  | anything
  /-- The value of an option. -/
  | value (option : OptionName)
  /-- An operand, since a double hyphen has ended the options. -/
  | operand
  deriving DecidableEq, Repr

namespace Expected

/-- What can come after an argument. -/
def next : Expected → String → Expected
  | anything, text => if text = "--" then operand else (valueAfter? text).elim anything value
  | value _, _ => anything
  | operand, _ => operand

/-- Whether an argument is part of anything else than the presentation. -/
def keeps : Expected → String → Bool
  | anything, text =>
    !(text = "--quiet" || text = "--output" || "--output=".toList.isPrefixOf text.toList)
  | value option, _ => option != .output
  | operand, _ => true

end Expected

def withoutPresentationFrom : Expected → List String → List String
  | _, [] => []
  | expected, text :: rest =>
    if expected.keeps text then text :: withoutPresentationFrom (expected.next text) rest
    else withoutPresentationFrom (expected.next text) rest

def withoutPresentation (args : List String) : List String :=
  withoutPresentationFrom .anything args

def Format.label : Format → String
  | .text => "text"
  | .json => "json"

def Presentation.flags (p : Presentation) : List String :=
  ("--output=" ++ p.format.label) :: if p.quiet then ["--quiet"] else []

def Presentation.occurrences (p : Presentation) : List Occurrence :=
  ⟨.output, p.format.label⟩ :: if p.quiet then [⟨.quiet, ""⟩] else []

/-- Whether an option is about anything else than the presentation. -/
def Occurrence.kept (o : Occurrence) : Bool := o.option != .output && o.option != .quiet

/-- The flags of a presentation stand beside options that are about
something else. -/
theorem Admissible.flags_append {side : List Occurrence} (h : Admissible side)
    (hkept : ∀ o ∈ side, o.kept = true) (p : Presentation) :
    Admissible (p.occurrences ++ side) := by
  have hpresent : ∀ o ∈ p.occurrences, o.kept = false := by
    unfold Presentation.occurrences
    cases p.quiet <;> simp [Occurrence.kept]
  have hflags : Admissible p.occurrences := by
    unfold Presentation.occurrences Admissible
    cases p.quiet <;> cases p.format <;>
      simp [Reading.acceptsValue, Format.label, OptionName.takesPath]
  refine ⟨?_, List.pairwise_append.mpr ⟨hflags.2, h.2, ?_⟩⟩
  · intro o ho
    rcases List.mem_append.mp ho with ho | ho
    · exact hflags.1 o ho
    · exact h.1 o ho
  · intro a ha b hb hsame
    have hne : a.kept = b.kept := by simp [Occurrence.kept, hsame]
    rw [hpresent a ha, hkept b hb] at hne
    cases hne

namespace Reading

/-! ## What arguments spell -/

theorem equals_notMem_long (option : OptionName) : '=' ∉ option.long.toList := by
  cases option <;> decide

theorem valueAfter?_long (option : OptionName) :
    valueAfter? ("--" ++ option.long) = if option.takesValue then some option else none := by
  cases option <;> decide +kernel

theorem keeps_long (option : OptionName) :
    Expected.anything.keeps ("--" ++ option.long) = (option != .output && option != .quiet) := by
  cases option <;> decide +kernel

section other
variable {text : String} (h : ∀ option : OptionName, "--" ++ option.long ≠ text)
include h

theorem find?_of_ne_long :
    OptionName.all.find? (fun option => option.takesValue && "--" ++ option.long == text)
      = none := by
  rw [List.find?_eq_none]
  intro option _
  simp [h option]

theorem keeps_of_ne_long :
    Expected.anything.keeps text = !"--output=".toList.isPrefixOf text.toList := by
  have hquiet : text ≠ "--quiet" := fun htext => h .quiet htext.symm
  have houtput : text ≠ "--output" := fun htext => h .output htext.symm
  simp [Expected.keeps, hquiet, houtput]

end other

section attached
variable {text : String} {option : OptionName} {value : List Char}
  (h : text.toList = '-' :: '-' :: (option.long.toList ++ '=' :: value))
include h

theorem ne_long_of_attached (other : OptionName) : "--" ++ other.long ≠ text := by
  intro htext
  have hmem : '=' ∈ ("--" ++ other.long).toList := by
    rw [htext, h]
    simp
  have hnot := equals_notMem_long other
  simp [hnot] at hmem

theorem valueAfter?_attached : valueAfter? text = none := by
  rw [valueAfter?, find?_of_ne_long (ne_long_of_attached h), h]
  simp

theorem keeps_attached : Expected.anything.keeps text = (option != .output) := by
  have hprefix : "--output=".toList.isPrefixOf text.toList = (option == .output) := by
    rw [h]
    cases option <;> rfl
  rw [keeps_of_ne_long (ne_long_of_attached h), hprefix]
  rfl

end attached

/-- What is given apart from the presentation. -/
def plainPart (given : List Occurrence × Option OptionName) :
    List Occurrence × Option OptionName :=
  (given.1.filter Occurrence.kept, given.2.filter (· != .output))

theorem plainPart_givenBy?_none {option : OptionName}
    {given : List Occurrence × Option OptionName} (h : givenBy? option none = some given) :
    plainPart given =
      if option != .output && option != .quiet then given else ([], none) := by
  cases option <;> cases h <;> rfl

theorem plainPart_givenBy?_some {option : OptionName} {value : String}
    {given : List Occurrence × Option OptionName} (h : givenBy? option (some value) = some given) :
    plainPart given = if option != .output then given else ([], none) := by
  cases option <;> cases h <;> rfl

theorem given?_eq_some {known : List OptionName} {text : String}
    {given : List Occurrence × Option OptionName} (h : given? known text = some given) :
    given.2 = valueAfter? text ∧
      plainPart given = if Expected.anything.keeps text then given else ([], none) := by
  unfold given? at h
  split at h
  · next body hlist =>
    obtain ⟨option, hknown, ⟨rfl, hgiven⟩ | ⟨value, rfl, hgiven⟩⟩ := body_of_givenLong? h
    · obtain rfl : text = "--" ++ option.long := by
        apply String.toList_inj.mp
        rw [hlist]
        simp
      constructor
      · rw [valueAfter?_long]
        cases option <;> cases hgiven <;> rfl
      · rw [keeps_long, plainPart_givenBy?_none hgiven]
    · constructor
      · rw [valueAfter?_attached hlist]
        cases option <;> cases hgiven <;> rfl
      · rw [keeps_attached hlist, plainPart_givenBy?_some hgiven]
  · next c rest hlong hlist =>
    obtain ⟨hpending, hoptions, _⟩ := givenShort?_eq_some h
    have hc : c ≠ '-' := hlong
    have hne : ∀ option : OptionName, "--" ++ option.long ≠ text := by
      intro option htext
      rw [← htext, String.toList_append] at hlist
      exact hc (List.cons.inj (List.cons.inj hlist).2).1.symm
    have hkeeps : Expected.anything.keeps text = true := by
      rw [keeps_of_ne_long hne, hlist]
      simp [List.isPrefixOf, Ne.symm hc]
    constructor
    · rw [hpending, valueAfter?, find?_of_ne_long hne, hlist]
      simp [hc]
    · rw [hkeeps, if_pos rfl]
      apply Prod.ext
      · apply List.filter_eq_self.mpr
        intro o ho
        rcases hoptions o ho with hoption | hoption <;> rw [Occurrence.kept, hoption] <;> rfl
      · show given.2.filter (· != .output) = given.2
        rw [hpending]
        split <;> rfl
  · cases h

theorem expected_of_plain {text : String} (h : looksLikeOption text = false) :
    Expected.anything.keeps text = true ∧ Expected.anything.next text = .anything := by
  have hlist : ∀ c rest, text.toList ≠ '-' :: c :: rest := by
    intro c rest hlist
    simp [looksLikeOption, hlist] at h
  have hne : ∀ option : OptionName, "--" ++ option.long ≠ text := by
    intro option htext
    exact hlist '-' option.long.toList (by rw [← htext, String.toList_append]; rfl)
  have hvalue : valueAfter? text = none := by
    rw [valueAfter?, find?_of_ne_long hne]
    dsimp only
    split
    · next hhyphen => exact absurd hhyphen (hlist _ _)
    · rfl
  have hprefix : "--output=".toList.isPrefixOf text.toList = false := by
    apply Bool.eq_false_iff.mpr
    intro hprefix
    obtain ⟨rest, hrest⟩ := List.isPrefixOf_iff_prefix.mp hprefix
    exact hlist _ _ hrest.symm
  constructor
  · rw [keeps_of_ne_long hne, hprefix]
    rfl
  · rw [Expected.next, if_neg (ne_hyphens_of_plain h), hvalue]
    rfl

/-! ## Two lines side by side -/

def expected (r : Reading) : Expected :=
  match r.pending with
  | some option => .value option
  | none => if r.operandsOnly then .operand else .anything

theorem expected_of_none {r : Reading} (hpending : r.pending = none)
    (hopen : r.operandsOnly = false) : r.expected = .anything := by
  rw [expected, hpending, hopen]
  rfl

theorem Orderly.expected_reads {r next : Reading} {text : String} (h : r.Orderly)
    (hreads : Reads r text next) : next.expected = r.expected.next text := by
  cases hreads with
  | @value option hpending hfits =>
    have hopen : r.operandsOnly = false := by
      apply Bool.eq_false_iff.mpr
      intro honly
      have hnone := h.operand honly
      rw [hpending] at hnone
      cases hnone
    have hnext : Reading.expected { r with pending := none, waiting := some ⟨option, text⟩ }
        = if r.operandsOnly then .operand else .anything := rfl
    rw [hnext, hopen, expected, hpending]
    rfl
  | ended hpending hopen htext =>
    rw [expected_of_none hpending hopen, expected, hpending, htext]
    rfl
  | @options given hpending hopen htext hgiven hside =>
    obtain ⟨hvalue, _⟩ := given?_eq_some hgiven
    have hstill : (r.giving given).operandsOnly = false := by
      rw [← hopen]
      exact operandsOnly_withSide r _
    rw [expected_of_none hpending hopen, Expected.next, if_neg htext, ← hvalue, expected,
      pending_giving, hstill]
    cases given.2 <;> rfl
  | command hpending hopen hplain hcommand hname =>
    rw [expected_of_none hpending hopen, (expected_of_plain hplain).2]
    exact expected_of_none hpending hopen
  | operand hpending hplain hcommand hlimit htext hside =>
    have hnone : (r.withSide r.whole).pending = none := by rw [pending_withSide, hpending]
    have hsame := operandsOnly_withSide r r.whole
    unfold expected
    dsimp only
    rw [hnone, hpending, hsame]
    dsimp only
    cases hopen : r.operandsOnly with
    | true => rfl
    | false =>
      rw [hopen] at hplain
      exact (expected_of_plain (hplain.resolve_left (by decide))).2.symm

/-- The first reading without the flags of the presentation is the second,
after the flags of `p`. -/
structure Trails (p : Presentation) (r r' : Reading) : Prop where
  command : r'.command = r.command
  operands : r'.operands = r.operands
  operandsOnly : r'.operandsOnly = r.operandsOnly
  pending : r'.pending = r.pending.filter (· != .output)
  before : r'.before = p.occurrences ++ r.before.filter Occurrence.kept
  after : r'.after = r.after.filter Occurrence.kept

/-- Options of this side without those of the presentation, after the flags
of `p` if the side is the one before the command's name. -/
def plainSide (p : Presentation) (r : Reading) (side : List Occurrence) : List Occurrence :=
  (if r.command.isSome then [] else p.occurrences) ++ side.filter Occurrence.kept

theorem admissible_plainSide {p : Presentation} {r : Reading} {side : List Occurrence}
    (h : Admissible side) : Admissible (r.plainSide p side) := by
  have hkept : Admissible (side.filter Occurrence.kept) := h.sublist List.filter_sublist
  unfold plainSide
  split
  · exact hkept
  · exact hkept.flags_append (fun o ho => (List.mem_filter.mp ho).2) p

theorem plainSide_append (p : Presentation) (r : Reading) (side more : List Occurrence) :
    r.plainSide p (side ++ more) = r.plainSide p side ++ more.filter Occurrence.kept := by
  simp [plainSide]

theorem Trails.whole {p : Presentation} {r r' : Reading} (h : Trails p r r') :
    r'.whole = r.plainSide p r.whole := by
  have hbefore := h.before
  have hafter := h.after
  unfold Reading.before at hbefore
  unfold Reading.after at hafter
  rw [h.command] at hbefore hafter
  unfold plainSide
  cases hcommand : r.command with
  | none => simpa [hcommand] using hbefore
  | some command => simpa [hcommand] using hafter

theorem Trails.withSide {p : Presentation} {r r' : Reading} (h : Trails p r r')
    (side : List Occurrence) {pending pending' : Option OptionName}
    (hpending : pending' = pending.filter (· != .output)) {operands operands' : List String}
    (hoperands : operands' = operands) :
    Trails p { r.withSide side with pending, operands }
      { r'.withSide (r.plainSide p side) with pending := pending', operands := operands' } := by
  refine ⟨?_, hoperands, ?_, hpending, ?_, ?_⟩
  · simp [h.command]
  · simp [h.operandsOnly]
  · show (r'.withSide _).before = _ ++ (r.withSide side).before.filter _
    rw [before_withSide, before_withSide, h.command, h.before]
    unfold plainSide
    cases r.command <;> simp
  · show (r'.withSide _).after = (r.withSide side).after.filter _
    rw [after_withSide, after_withSide, h.command, h.after]
    unfold plainSide
    cases r.command <;> simp

theorem Trails.giving {p : Presentation} {r r' : Reading} (h : Trails p r r')
    (given : List Occurrence × Option OptionName) :
    Trails p (r.giving given) (r'.giving (plainPart given)) := by
  unfold Reading.giving plainPart
  dsimp only
  rw [h.whole, ← plainSide_append]
  exact h.withSide (r.whole ++ given.1) rfl (by simp [h.operands])

/-- A value that has been read waits on this side. -/
theorem before_waiting {r : Reading} (h : r.waiting = none) (o : Occurrence) :
    Reading.before { r with pending := none, waiting := some o } =
      if r.command.isSome then r.before else r.whole ++ [o] := by
  unfold before whole Reading.side
  cases r.command <;> simp [h]

theorem after_waiting {r : Reading} (h : r.waiting = none) (o : Occurrence) :
    Reading.after { r with pending := none, waiting := some o } =
      if r.command.isSome then r.whole ++ [o] else r.after := by
  unfold after whole Reading.side
  cases r.command <;> simp [h]

theorem Trails.known {p : Presentation} {r r' : Reading} (h : Trails p r r') :
    r'.known = r.known := by
  rw [Reading.known, Reading.known, h.command]

/-- An argument that stays takes both readings on. -/
theorem Trails.reads {p : Presentation} {r r' next : Reading} {text : String}
    (h : Trails p r r') (hr : r.Orderly) (hr' : r'.Orderly) (hreads : Reads r text next)
    (hkeeps : r.expected.keeps text = true) :
    ∃ next', Reads r' text next' ∧ Trails p next next' := by
  cases hreads with
  | @value option hpending hfits =>
    rw [expected, hpending] at hkeeps
    have houtput : (option != .output) = true := hkeeps
    have hpending' : r'.pending = some option := by
      rw [h.pending, hpending, Option.filter_some, houtput, if_pos rfl]
    have hkept : Occurrence.kept ⟨option, text⟩ = true := by
      have htakes := (hr.pending option hpending).1
      cases option with
      | output => cases houtput
      | quiet => cases htakes
      | _ => rfl
    have hwaiting := hr.settled option hpending
    have hwaiting' := hr'.settled option hpending'
    refine ⟨_, .value hpending' hfits, ⟨h.command, h.operands, h.operandsOnly, rfl, ?_, ?_⟩⟩
    · rw [before_waiting hwaiting, before_waiting hwaiting', h.command, h.before, h.whole]
      unfold plainSide
      cases r.command <;> simp [hkept]
    · rw [after_waiting hwaiting, after_waiting hwaiting', h.command, h.after, h.whole]
      unfold plainSide
      cases r.command <;> simp [hkept]
  | ended hpending hopen htext =>
    have hnone : r'.pending = none := by rw [h.pending, hpending]; rfl
    have hopen' : r'.operandsOnly = false := by rw [h.operandsOnly, hopen]
    exact ⟨_, .ended hnone hopen' htext,
      ⟨h.command, h.operands, rfl, h.pending, h.before, h.after⟩⟩
  | @options given hpending hopen htext hgiven hside =>
    obtain ⟨_, hplain⟩ := given?_eq_some hgiven
    rw [expected_of_none hpending hopen] at hkeeps
    rw [hkeeps, if_pos rfl] at hplain
    have hnone : r'.pending = none := by rw [h.pending, hpending]; rfl
    have hopen' : r'.operandsOnly = false := by rw [h.operandsOnly, hopen]
    have hkept : given.1.filter Occurrence.kept = given.1 := congrArg Prod.fst hplain
    have hside' : Admissible (r'.whole ++ given.1) := by
      rw [h.whole, ← hkept, ← plainSide_append]
      exact admissible_plainSide hside
    refine ⟨_, .options hnone hopen' htext (by rw [h.known]; exact hgiven) hside', ?_⟩
    have hgiving := h.giving given
    rw [hplain] at hgiving
    exact hgiving
  | @command command hpending hopen hplain hcommand hname =>
    have hnone : r'.pending = none := by rw [h.pending, hpending]; rfl
    have hopen' : r'.operandsOnly = false := by rw [h.operandsOnly, hopen]
    have hcommand' : r'.command = none := by rw [h.command, hcommand]
    refine ⟨_, .command hnone hopen' hplain hcommand' hname,
      ⟨rfl, h.operands, h.operandsOnly, h.pending, ?_, ?_⟩⟩
    · have hbefore := h.before
      simpa [Reading.before, Reading.whole, Reading.side, hcommand, hcommand'] using hbefore
    · simp [Reading.after, Reading.whole, Reading.side, hr.first hcommand, hr'.first hcommand']
  | operand hpending hplain hcommand hlimit htext hside =>
    have hnone : r'.pending = none := by rw [h.pending, hpending]; rfl
    have hside' : Admissible r'.whole := by
      rw [h.whole]
      exact admissible_plainSide hside
    refine ⟨_, .operand hnone (by rw [h.operandsOnly]; exact hplain) (h.command.trans hcommand)
      (by rw [h.operands]; exact hlimit) htext hside', ?_⟩
    rw [h.whole]
    exact h.withSide r.whole (by simp [h.pending]) (by rw [h.operands])

/-- A flag takes only the first reading on. -/
theorem Trails.drops {p : Presentation} {r r' next : Reading} {text : String}
    (h : Trails p r r') (hr : r.Orderly) (hreads : Reads r text next)
    (hkeeps : r.expected.keeps text = false) : Trails p next r' := by
  cases hreads with
  | @value option hpending hfits =>
    rw [expected, hpending] at hkeeps
    obtain rfl : option = .output := by simpa [Expected.keeps] using hkeeps
    have hwaiting := hr.settled _ hpending
    refine ⟨h.command, h.operands, h.operandsOnly, ?_, ?_, ?_⟩
    · rw [h.pending, hpending]
      rfl
    · have hbefore := h.before
      rw [before_waiting hwaiting]
      cases hcommand : r.command with
      | some command => simpa using hbefore
      | none => simpa [Reading.before, hcommand, Occurrence.kept] using hbefore
    · have hafter := h.after
      rw [after_waiting hwaiting]
      cases hcommand : r.command with
      | some command => simpa [Reading.after, hcommand, Occurrence.kept] using hafter
      | none => simpa using hafter
  | ended hpending hopen htext =>
    rw [expected_of_none hpending hopen, htext] at hkeeps
    cases hkeeps
  | @options given hpending hopen htext hgiven hside =>
    obtain ⟨_, hplain⟩ := given?_eq_some hgiven
    rw [expected_of_none hpending hopen] at hkeeps
    rw [hkeeps, if_neg (by decide)] at hplain
    have hgiving := h.giving given
    rw [hplain] at hgiving
    refine ⟨by simpa using hgiving.command, ?_, ?_, ?_, ?_, ?_⟩
    · rw [h.operands]
      exact (operands_withSide r _).symm
    · rw [h.operandsOnly]
      exact (operandsOnly_withSide r _).symm
    · rw [h.pending, hpending]
      exact hgiving.pending
    · rw [← hgiving.before, before_giving, List.append_nil]
      unfold Reading.before
      split <;> rfl
    · rw [← hgiving.after, after_giving, List.append_nil]
      unfold Reading.after
      split <;> rfl
  | command hpending hopen hplain hcommand hname =>
    rw [expected_of_none hpending hopen, (expected_of_plain hplain).1] at hkeeps
    cases hkeeps
  | operand hpending hplain hcommand hlimit htext hside =>
    rw [expected, hpending] at hkeeps
    dsimp only at hkeeps
    cases hopen : r.operandsOnly with
    | true =>
      rw [hopen] at hkeeps
      cases hkeeps
    | false =>
      rw [hopen] at hplain hkeeps
      rw [if_neg (by decide), (expected_of_plain (hplain.resolve_left (by decide))).1] at hkeeps
      cases hkeeps

theorem Trails.foldlM {p : Presentation} {args : List String} {r r' last : Reading}
    (h : Trails p r r') (hr : r.Orderly) (hr' : r'.Orderly)
    (hrun : args.foldlM step r = .ok last) (hhelp : last.command ≠ some .help) :
    ∃ last', (withoutPresentationFrom r.expected args).foldlM step r' = .ok last' ∧
      Trails p last last' ∧ last.Orderly ∧ last'.Orderly := by
  induction args generalizing r r' with
  | nil =>
    cases hrun
    exact ⟨r', rfl, h, hr, hr'⟩
  | cons text rest ih =>
    have hcommand : r.command ≠ some .help := by
      intro hcommand
      exact hhelp (command_help_of_foldlM hcommand hrun)
    rw [List.foldlM_cons] at hrun
    obtain ⟨next, hstep, hrun⟩ := bind_eq_ok_iff.mp hrun
    have hreads := (step_eq_ok_iff hr.side hcommand).mp hstep
    rw [withoutPresentationFrom, ← hr.expected_reads hreads]
    cases hkeeps : r.expected.keeps text with
    | false => exact ih (h.drops hr hreads hkeeps) (hr.reads hreads) hr' hrun
    | true =>
      obtain ⟨next', hreads', hnext⟩ := h.reads hr hr' hreads hkeeps
      obtain ⟨last', hlast, hrest⟩ := ih hnext (hr.reads hreads) (hr'.reads hreads') hrun
      refine ⟨last', ?_, hrest⟩
      rw [if_pos rfl, List.foldlM_cons]
      exact bind_eq_ok_iff.mpr
        ⟨next', (step_eq_ok_iff hr'.side (by rw [h.command]; exact hcommand)).mpr hreads', hlast⟩

/-! ## Requests -/

theorem kept_of_option {option : OptionName} (houtput : option ≠ .output)
    (hquiet : option ≠ .quiet) {o : Occurrence} (h : (o.option == option) = true) :
    o.kept = true := by
  rw [beq_iff_eq] at h
  simp [Occurrence.kept, h, houtput, hquiet]

theorem filter_filter_kept {option : OptionName} (houtput : option ≠ .output)
    (hquiet : option ≠ .quiet) (side : List Occurrence) :
    (side.filter Occurrence.kept).filter (·.option == option)
      = side.filter (·.option == option) := by
  rw [List.filter_filter]
  apply List.filter_congr
  intro o _
  cases hsame : o.option == option with
  | false => rfl
  | true => exact kept_of_option houtput hquiet hsame

theorem find?_filter_kept {option : OptionName} (houtput : option ≠ .output)
    (hquiet : option ≠ .quiet) (side : List Occurrence) :
    (side.filter Occurrence.kept).find? (·.option == option)
      = side.find? (·.option == option) := by
  rw [← List.head?_filter, ← List.head?_filter, filter_filter_kept houtput hquiet]

theorem find?_occurrences (p : Presentation) {option : OptionName} (houtput : option ≠ .output)
    (hquiet : option ≠ .quiet) : p.occurrences.find? (·.option == option) = none := by
  unfold Presentation.occurrences
  cases p.quiet <;> simp [Ne.symm houtput, Ne.symm hquiet]

theorem Trails.value? {p : Presentation} {r r' : Reading} (h : Trails p r r')
    {option : OptionName} (houtput : option ≠ .output) (hquiet : option ≠ .quiet) :
    r'.all.value? option = r.all.value? option := by
  unfold Reading.value? Reading.all
  dsimp only
  rw [h.before, h.after, List.find?_append, find?_occurrences p houtput hquiet,
    find?_filter_kept houtput hquiet, find?_filter_kept houtput hquiet, Option.none_or]

theorem find?_filter_presentation {option : OptionName} (h : option = .output ∨ option = .quiet)
    (side : List Occurrence) :
    (side.filter Occurrence.kept).find? (·.option == option) = none := by
  rw [List.find?_eq_none]
  intro o ho hsame
  have hkept := (List.mem_filter.mp ho).2
  rw [beq_iff_eq] at hsame
  rcases h with rfl | rfl <;> simp [Occurrence.kept, hsame] at hkept

theorem Trails.presentation {p : Presentation} {r r' : Reading} (h : Trails p r r')
    {option : OptionName} (hoption : option = .output ∨ option = .quiet) :
    r'.all.value? option = (p.occurrences.find? (·.option == option)).map Occurrence.value := by
  unfold Reading.value? Reading.all
  dsimp only
  rw [h.before, h.after, List.find?_append, find?_filter_presentation hoption,
    find?_filter_presentation hoption, Option.none_or, Option.or_none]

theorem Trails.request {p : Presentation} {r r' : Reading} (h : Trails p r r') (action : Action) :
    r'.all.request action = { r.all.request action with presentation := p } := by
  have hconfig : r'.all.value? .config = r.all.value? .config := h.value? (by decide) (by decide)
  unfold Reading.request Reading.has
  rw [hconfig, h.presentation (Or.inl rfl), h.presentation (Or.inr rfl)]
  obtain ⟨format, quiet⟩ := p
  cases format <;> cases quiet <;> rfl

theorem Trails.action {p : Presentation} {r r' : Reading} (h : Trails p r r') :
    r'.all.action = r.all.action := by
  refine action_congr h.command h.operands ?_ ?_
  · intro option hoption
    apply h.value?
    · rintro rfl
      exact hoption (by decide)
    · rintro rfl
      exact hoption (by decide)
  · unfold Reading.values Reading.all
    dsimp only
    rw [h.after, filter_filter_kept (by decide) (by decide)]

theorem Trails.finish {p : Presentation} {r r' : Reading} (h : Trails p r r') (hr : r.Orderly)
    (hr' : r'.Orderly) {request : Request} (hfinish : r.finish = .ok request) :
    r'.finish = .ok { request with presentation := p } := by
  obtain ⟨hpending, hbefore, hafter, action, haction, rfl⟩ := (finish_eq_ok_iff hr).mp hfinish
  refine (finish_eq_ok_iff hr').mpr ⟨?_, ?_, ?_, action, ?_, ?_⟩
  · rw [h.pending, hpending]
    rfl
  · rw [h.before]
    exact (hbefore.sublist List.filter_sublist).flags_append
      (fun o ho => (List.mem_filter.mp ho).2) p
  · rw [h.after]
    exact hafter.sublist List.filter_sublist
  · rw [h.action, haction]
  · exact (h.request action).symm

theorem orderly_start (p : Presentation) : Orderly { outer := p.occurrences } := by
  have hadmissible : Admissible (p.occurrences ++ []) :=
    admissible_nil.flags_append (fun _ h => absurd h List.not_mem_nil) p
  rw [List.append_nil] at hadmissible
  refine ⟨hadmissible, admissible_nil, fun _ => rfl, ?_, nofun, nofun, nofun⟩
  obtain ⟨format, quiet⟩ := p
  cases format <;> cases quiet <;> decide

theorem trails_start (p : Presentation) : Trails p {} { outer := p.occurrences } := by
  refine ⟨rfl, rfl, rfl, rfl, ?_, rfl⟩
  simp [before, whole, side]

/-- The flags of a presentation by themselves. -/
theorem foldlM_flags (p : Presentation) :
    p.flags.foldlM step {} = .ok { outer := p.occurrences } := by
  obtain ⟨format, quiet⟩ := p
  cases format <;> cases quiet <;> rfl

end Reading

/-- The line asks for the same with any other flags of the presentation. -/
theorem Request.ofArgs_flags {args : List String} {r : Request} (h : Request.ofArgs args = .ok r)
    (p : Presentation) :
    Request.ofArgs (p.flags ++ withoutPresentation args) = .ok { r with presentation := p } := by
  obtain ⟨last, hrun, hfinish⟩ := bind_eq_ok_iff.mp h
  have hhelp : last.command ≠ some .help := fun hcommand => Reading.finish_help hcommand hfinish
  obtain ⟨last', hrun', htrails, hlast, hlast'⟩ :=
    (Reading.trails_start p).foldlM Reading.orderly_empty (Reading.orderly_start p) hrun hhelp
  refine bind_eq_ok_iff.mpr ⟨last', ?_, htrails.finish hlast hlast' hfinish⟩
  rw [List.foldlM_append, Reading.foldlM_flags]
  exact hrun'

/-! ## Running -/

section
variable (e : Environment) (w : File.Workspace)

theorem runLine_of_ofArgs {args : List String} {r : Request} (h : Request.ofArgs args = .ok r) :
    runLine e w args = .ok (r.run e w) := by
  rw [runLine, h]

/-- Requests that differ only in their presentation come to the same. -/
theorem Request.run_of_presentation {r s : Request} (hconfig : s.config = r.config)
    (haction : s.action = r.action) :
    (s.run e w).exitCode = (r.run e w).exitCode ∧ (s.run e w).files = (r.run e w).files := by
  rw [Request.run_eq, Request.run_eq, hconfig, haction]
  exact ⟨rfl, rfl⟩

/-- Lines that differ only in their flags ask for the same. -/
theorem Request.of_withoutPresentation {args args' : List String} {r r' : Request}
    (h : Request.ofArgs args = .ok r) (h' : Request.ofArgs args' = .ok r')
    (hsame : withoutPresentation args' = withoutPresentation args) :
    r'.config = r.config ∧ r'.action = r.action := by
  have hplain := Request.ofArgs_flags h {}
  have hplain' := Request.ofArgs_flags h' {}
  rw [hsame, hplain] at hplain'
  have hrequest := Except.ok.inj hplain'
  exact ⟨(congrArg Request.config hrequest).symm, (congrArg Request.action hrequest).symm⟩

/-- The presentation does not change what a request comes to: its exit code
and the files that it leaves are the same in every format, quiet or not. Nor
do the flags of a command line. An accepted line is accepted with any other
flags in the place of its own, and shows its outcome as they say. Its exit
code and the files that it leaves are the same with those flags, and those of
every accepted line that differs from it only in such flags, wherever they
stand. -/
theorem presentation_keeps_outcome :
    (∀ (r : Request) (p : Presentation),
      (Request.run { r with presentation := p } e w).exitCode = (r.run e w).exitCode ∧
        (Request.run { r with presentation := p } e w).files = (r.run e w).files) ∧
    ∀ args r, Request.ofArgs args = .ok r →
      ∃ response, runLine e w args = .ok response ∧
        (∀ p : Presentation,
          Request.ofArgs (p.flags ++ withoutPresentation args) = .ok { r with presentation := p } ∧
          ∃ other, runLine e w (p.flags ++ withoutPresentation args) = .ok other ∧
            other.exitCode = response.exitCode ∧ other.files = response.files) ∧
        ∀ args' r', Request.ofArgs args' = .ok r' →
          withoutPresentation args' = withoutPresentation args →
          ∃ other, runLine e w args' = .ok other ∧
            other.exitCode = response.exitCode ∧ other.files = response.files := by
  refine ⟨fun r p => Request.run_of_presentation e w rfl rfl, ?_⟩
  intro args r h
  refine ⟨r.run e w, runLine_of_ofArgs e w h, ?_, ?_⟩
  · intro p
    have hflags := Request.ofArgs_flags h p
    exact ⟨hflags, _, runLine_of_ofArgs e w hflags, Request.run_of_presentation e w rfl rfl⟩
  · intro args' r' h' hsame
    obtain ⟨hconfig, haction⟩ := Request.of_withoutPresentation h h' hsame
    exact ⟨_, runLine_of_ofArgs e w h', Request.run_of_presentation e w hconfig haction⟩

end

/-- A line with flags on both sides of the command's name, and one that the
program is to be called with. -/
def flaggedLine : List String :=
  ["--quiet", "build", "s", "--output", "json", "--program", "sh", "--arg", "--quiet"]

/-- The same with no flags but at its end. -/
def barelyFlaggedLine : List String :=
  ["build", "s", "--program", "sh", "--arg", "--quiet", "--output=text"]

def emptyEnvironment : Environment :=
  { host := fun _ _ _ _ => .error .missing, stagedPath := "/tmp/g" }

/-- A schema, and a directory for the grammar of it. -/
def smallWorkspace : File.Workspace :=
  { here := [], files := [(["s"], "$a: 'red".toUTF8.toList)], directories := [["tmp"]] }

theorem flagged_line_keeps_outcome :
    withoutPresentation flaggedLine = ["build", "s", "--program", "sh", "--arg", "--quiet"] ∧
    ∃ response other,
      runLine emptyEnvironment smallWorkspace flaggedLine = .ok response ∧
      runLine emptyEnvironment smallWorkspace barelyFlaggedLine = .ok other ∧
      other.exitCode = response.exitCode ∧ other.files = response.files := by
  refine ⟨rfl, ?_⟩
  obtain ⟨response, hresponse, _, hothers⟩ :=
    (presentation_keeps_outcome emptyEnvironment smallWorkspace).2 flaggedLine
      { presentation := { format := .json, quiet := true }, config := none,
        action := .build { path := "s" } (some "sh") ["--quiet"] } rfl
  obtain ⟨other, hother, hsame⟩ := hothers barelyFlaggedLine
    { presentation := {}, config := none,
      action := .build { path := "s" } (some "sh") ["--quiet"] } rfl rfl
  exact ⟨response, other, hresponse, hother, hsame⟩

end TreeSchema.Command
