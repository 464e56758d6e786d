import TreeSchema.Command.Line
import TreeSchema.Proofs.Steps
/-
  Reading the command line

  The reader checks options as it goes, and looks at the value of an option
  only when the next argument comes. Here its steps are taken apart. What an
  argument gives is one matter (`given?`), and whether the options given on
  one side of the command's name can stand beside each other is another
  (`Admissible`); a step succeeds just if both are in order
  (`Reading.step_eq_ok_iff`), and so does the end of the line
  (`Reading.finish_eq_ok_iff`).
-/

namespace TreeSchema.Command

/-! ## Options that can stand beside each other -/

/-- The options can be given together on one side of the command's name: each
accepts its value, and only free ones are repeated. -/
def Admissible (side : List Occurrence) : Prop :=
  (∀ o ∈ side, Reading.acceptsValue o.option o.value = true) ∧
    side.Pairwise fun a b => a.option = b.option → a.option.isFree = true

theorem admissible_nil : Admissible [] :=
  ⟨fun _ h => absurd h List.not_mem_nil, List.Pairwise.nil⟩

theorem Admissible.sublist {side less : List Occurrence} (h : Admissible side)
    (hless : less.Sublist side) : Admissible less :=
  ⟨fun o ho => h.1 o (hless.subset ho), h.2.sublist hless⟩

theorem Admissible.of_append {side more : List Occurrence} (h : Admissible (side ++ more)) :
    Admissible side :=
  h.sublist (List.sublist_append_left side more)

namespace Reading

theorem admissible_concat {side : List Occurrence} {o : Occurrence} (h : Admissible side) :
    Admissible (side ++ [o]) ↔ acceptsValue o.option o.value = true ∧
      (o.option.isFree = true ∨ ∀ a ∈ side, a.option ≠ o.option) := by
  constructor
  · intro hmore
    refine ⟨hmore.1 o (by simp), ?_⟩
    cases hfree : o.option.isFree with
    | true => exact Or.inl rfl
    | false =>
      refine Or.inr fun a ha hsame => ?_
      have := (List.pairwise_append.mp hmore.2).2.2 a ha o (by simp) hsame
      rw [hsame, hfree] at this
      cases this
  · intro ⟨haccepts, honce⟩
    refine ⟨?_, List.pairwise_append.mpr ⟨h.2, List.pairwise_singleton .., ?_⟩⟩
    · intro a ha
      rcases List.mem_append.mp ha with ha | ha
      · exact h.1 a ha
      · rw [List.mem_singleton.mp ha]
        exact haccepts
    · intro a ha b hb hsame
      rw [List.mem_singleton.mp hb] at hsame
      rcases honce with hfree | hnone
      · rw [hsame]
        exact hfree
      · exact absurd hsame (hnone a ha)

theorem extend_eq_ok_iff {side next : List Occurrence} {o : Occurrence} (h : Admissible side) :
    extend side o = .ok next ↔ next = side ++ [o] ∧ Admissible (side ++ [o]) := by
  rw [admissible_concat h]
  have hany : side.any (·.option == o.option) = false ↔ ∀ a ∈ side, a.option ≠ o.option := by
    simp
  unfold extend
  rw [← hany]
  cases o.option.isFree <;> cases side.any (·.option == o.option) <;>
    cases acceptsValue o.option o.value <;> simp [eq_comm]

/-- The options on this side of the command's name, with the one that waits. -/
def whole (r : Reading) : List Occurrence := r.side ++ r.waiting.toList

/-- The reading with other options on this side, of which none waits. -/
def withSide (r : Reading) (side : List Occurrence) : Reading :=
  if r.command.isSome then { r with inner := side, waiting := none }
  else { r with outer := side, waiting := none }

/-- The options before the command's name, looked at or not. -/
def before (r : Reading) : List Occurrence :=
  if r.command.isSome then r.outer ++ r.deferred.toList else r.whole

def after (r : Reading) : List Occurrence := if r.command.isSome then r.whole else []

section withSide
variable (r : Reading) (side : List Occurrence)

@[simp] theorem side_withSide : (r.withSide side).side = side := by
  unfold withSide Reading.side
  cases r.command <;> simp

@[simp] theorem command_withSide : (r.withSide side).command = r.command := by
  unfold withSide
  split <;> rfl

@[simp] theorem waiting_withSide : (r.withSide side).waiting = none := by
  unfold withSide
  split <;> rfl

@[simp] theorem pending_withSide : (r.withSide side).pending = r.pending := by
  unfold withSide
  split <;> rfl

@[simp] theorem operands_withSide : (r.withSide side).operands = r.operands := by
  unfold withSide
  split <;> rfl

@[simp] theorem operandsOnly_withSide : (r.withSide side).operandsOnly = r.operandsOnly := by
  unfold withSide
  split <;> rfl

@[simp] theorem withSide_withSide (other : List Occurrence) :
    (r.withSide side).withSide other = r.withSide other := by
  unfold withSide
  cases r.command <;> simp

theorem whole_withSide : (r.withSide side).whole = side := by
  simp [whole]

theorem before_withSide :
    (r.withSide side).before = if r.command.isSome then r.before else side := by
  unfold before
  rw [command_withSide, whole_withSide]
  unfold withSide
  cases r.command <;> rfl

theorem after_withSide :
    (r.withSide side).after = if r.command.isSome then side else r.after := by
  unfold after
  rw [command_withSide, whole_withSide]
  cases r.command <;> rfl

end withSide

theorem withSide_whole {r : Reading} (h : r.waiting = none) : r.withSide r.whole = r := by
  obtain ⟨command, outer, inner, operands, pending, waiting, deferred, operandsOnly⟩ := r
  cases h
  unfold withSide whole Reading.side
  cases command <;> simp

theorem add_eq_ok_iff {r next : Reading} {o : Occurrence} (h : Admissible r.side)
    (hwaiting : r.waiting = none) :
    r.add o = .ok next ↔ next = r.withSide (r.side ++ [o]) ∧ Admissible (r.side ++ [o]) := by
  have hside : ∀ side, (if r.command.isSome then { r with inner := side }
      else { r with outer := side }) = r.withSide side := by
    intro side
    obtain ⟨command, outer, inner, operands, pending, waiting, deferred, operandsOnly⟩ := r
    cases hwaiting
    rfl
  unfold add
  simp only [bind_eq_ok_iff, extend_eq_ok_iff h, pure, Except.pure, hside]
  constructor
  · rintro ⟨side, ⟨rfl, hadmissible⟩, hnext⟩
    exact ⟨(Except.ok.inj hnext).symm, hadmissible⟩
  · rintro ⟨rfl, hadmissible⟩
    exact ⟨_, ⟨rfl, hadmissible⟩, rfl⟩

theorem settle_eq_ok_iff {r next : Reading} (h : Admissible r.side) :
    r.settle = .ok next ↔ next = r.withSide r.whole ∧ Admissible r.whole := by
  unfold settle
  cases hwaiting : r.waiting with
  | none =>
    have hwhole : r.whole = r.side := by simp [whole, hwaiting]
    rw [withSide_whole hwaiting, hwhole]
    simp [h, eq_comm]
  | some o =>
    have hwhole : r.whole = r.side ++ [o] := by simp [whole, hwaiting]
    have hcleared : (show Reading from { r with waiting := none }).side = r.side := rfl
    have hsame : (show Reading from { r with waiting := none }).withSide r.whole
        = r.withSide r.whole := by
      unfold withSide
      split <;> rfl
    show (show Reading from { r with waiting := none }).add o = .ok next ↔ _
    rw [add_eq_ok_iff (by rw [hcleared]; exact h) rfl, hcleared, ← hwhole, hsame]

/-! ## One argument

What an argument gives is said apart from the reading that it is added to:
the options in it, and the one whose value follows. -/

/-- What an option gives with the value attached to it. -/
def givenBy? (option : OptionName) :
    Option String → Option (List Occurrence × Option OptionName)
  | some value => if option.takesValue then some ([⟨option, value⟩], none) else none
  | none =>
    if option.takesValue then some ([], some option)
    else if option = .help ∨ option = .version then none
    else some ([⟨option, ""⟩], none)

def givenLong? (known : List OptionName) (body : List Char) :
    Option (List Occurrence × Option OptionName) := do
  let option ← known.find? fun option => option.long == String.ofList (body.takeWhile (· != '='))
  givenBy? option <| match body.dropWhile (· != '=') with
    | [] => none
    | _ :: value => some (String.ofList value)

def givenShort? (known : List OptionName) : List Char → Option (List Occurrence × Option OptionName)
  | [] => some ([], none)
  | c :: rest => do
    let option ← known.find? fun option => option.short? == some c
    if option.takesValue then
      givenBy? option <| match rest with
        | [] => none
        | '=' :: value => some (String.ofList value)
        | value => some (String.ofList value)
    else
      let (first, _) ← givenBy? option none
      let (others, pending) ← givenShort? known rest
      return (first ++ others, pending)

def giving (r : Reading) (given : List Occurrence × Option OptionName) : Reading :=
  { r.withSide (r.whole ++ given.1) with pending := given.2 }

section giving
variable (r : Reading) (given : List Occurrence × Option OptionName)

@[simp] theorem command_giving : (r.giving given).command = r.command := command_withSide r _

@[simp] theorem pending_giving : (r.giving given).pending = given.2 := rfl

@[simp] theorem waiting_giving : (r.giving given).waiting = none := waiting_withSide r _

@[simp] theorem side_giving : (r.giving given).side = r.whole ++ given.1 := side_withSide r _

@[simp] theorem whole_giving : (r.giving given).whole = r.whole ++ given.1 := whole_withSide r _

@[simp] theorem known_giving : (r.giving given).known = r.known := by
  simp [known]

theorem before_giving :
    (r.giving given).before = if r.command.isSome then r.before else r.whole ++ given.1 :=
  before_withSide r _

theorem after_giving :
    (r.giving given).after = if r.command.isSome then r.whole ++ given.1 else r.after :=
  after_withSide r _

theorem giving_giving (first : List Occurrence) :
    (r.giving (first, none)).giving given = r.giving (first ++ given.1, given.2) := by
  rw [giving, whole_giving, List.append_assoc]
  unfold giving withSide
  cases r.command <;> rfl

end giving

theorem addOption_some {r : Reading} (option : OptionName) (value : String) :
    r.addOption option (some value) = r.settle >>= fun settled =>
      if option.takesValue then settled.add ⟨option, value⟩
      else .error (.usage (.valueNotTaken option)) := by
  cases option <;> rfl

theorem addOption_takesValue {r : Reading} {option : OptionName}
    (h : option.takesValue = true) :
    r.addOption option none = r.settle >>= fun settled =>
      .ok { settled with pending := some option } := by
  cases option <;> first | rfl | cases h

theorem addOption_switch {r : Reading} {option : OptionName} (h : option.takesValue = false)
    (hasks : ¬(option = .help ∨ option = .version)) :
    r.addOption option none = r.settle >>= fun settled => settled.add ⟨option, ""⟩ := by
  cases option with
  | help => exact absurd (Or.inl rfl) hasks
  | version => exact absurd (Or.inr rfl) hasks
  | quiet | verbose => rfl
  | output | config | name | root | out | program | arg => cases h

theorem addOption_asks {r next : Reading} {option : OptionName}
    (h : option = .help ∨ option = .version) : r.addOption option none ≠ .ok next := by
  unfold addOption
  rcases h with rfl | rfl <;> cases r.settle <;> simp

/-- Adding an option looks at the one that waits first. -/
theorem settle_add_eq_ok_iff {r next : Reading} {o : Occurrence} (h : Admissible r.side)
    (hpending : r.pending = none) :
    (r.settle >>= fun settled => settled.add o) = .ok next ↔
      Admissible (r.whole ++ [o]) ∧ next = r.giving ([o], none) := by
  have hgiving : r.giving ([o], none) = r.withSide (r.whole ++ [o]) := by
    unfold giving withSide
    rw [← hpending]
    split <;> rfl
  rw [hgiving]
  simp only [bind_eq_ok_iff, settle_eq_ok_iff h]
  constructor
  · rintro ⟨settled, ⟨rfl, hwhole⟩, hadd⟩
    rw [add_eq_ok_iff (by simpa using hwhole) (by simp)] at hadd
    simpa [and_comm] using hadd
  · rintro ⟨hmore, rfl⟩
    refine ⟨_, ⟨rfl, hmore.of_append⟩, ?_⟩
    rw [add_eq_ok_iff (by simpa using hmore.of_append) (by simp)]
    simpa using hmore

theorem addOption_eq_ok_iff {r next : Reading} (h : Admissible r.side)
    (hpending : r.pending = none) {option : OptionName} {attached : Option String} :
    r.addOption option attached = .ok next ↔
      ∃ given, givenBy? option attached = some given ∧ Admissible (r.whole ++ given.1) ∧
        next = r.giving given := by
  unfold givenBy?
  cases attached with
  | some value =>
    rw [addOption_some]
    cases option.takesValue with
    | true => simp [settle_add_eq_ok_iff h hpending]
    | false => simp [bind_eq_ok_iff]
  | none =>
    cases htakes : option.takesValue with
    | true =>
      rw [addOption_takesValue htakes]
      simp only [bind_eq_ok_iff, settle_eq_ok_iff h, Except.ok.injEq]
      constructor
      · rintro ⟨settled, ⟨rfl, hwhole⟩, rfl⟩
        exact ⟨([], some option), rfl, by simpa using hwhole, by simp [giving]⟩
      · rintro ⟨given, hgiven, hwhole, rfl⟩
        cases hgiven
        exact ⟨_, ⟨rfl, by simpa using hwhole⟩, by simp [giving]⟩
    | false =>
      by_cases hasks : option = .help ∨ option = .version
      · simp [hasks, addOption_asks hasks]
      · rw [addOption_switch htakes hasks, settle_add_eq_ok_iff h hpending]
        simp [hasks]

theorem addLong_eq_ok_iff {r next : Reading} (h : Admissible r.side)
    (hpending : r.pending = none) {body : List Char} :
    r.addLong body = .ok next ↔
      ∃ given, givenLong? r.known body = some given ∧ Admissible (r.whole ++ given.1) ∧
        next = r.giving given := by
  unfold addLong givenLong?
  dsimp only
  cases r.known.find? fun option => option.long == String.ofList (body.takeWhile (· != '=')) with
  | none => simp
  | some option => exact addOption_eq_ok_iff h hpending

theorem addShort_eq_ok_iff {r next : Reading} (h : Admissible r.side)
    (hpending : r.pending = none) {letters : List Char}
    (hletters : letters = [] → r.waiting = none) :
    r.addShort letters = .ok next ↔
      ∃ given, givenShort? r.known letters = some given ∧ Admissible (r.whole ++ given.1) ∧
        next = r.giving given := by
  induction letters generalizing r with
  | nil =>
    have hwaiting := hletters rfl
    have hwhole : r.whole = r.side := by simp [whole, hwaiting]
    have hsame : r.giving ([], none) = r := by
      rw [giving, List.append_nil, withSide_whole hwaiting, ← hpending]
    simp [addShort, givenShort?, hwhole, hsame, h, eq_comm]
  | cons c rest ih =>
    unfold addShort givenShort?
    cases r.known.find? fun option => option.short? == some c with
    | none => simp
    | some option =>
      simp only [Option.bind_eq_bind, Option.bind_some]
      cases htakes : option.takesValue with
      | true => exact addOption_eq_ok_iff h hpending
      | false =>
        simp only [Bool.false_eq_true, if_false, bind_eq_ok_iff, addOption_eq_ok_iff h hpending]
        have hrest : ∀ o, Admissible (r.whole ++ [o]) →
            ((r.giving ([o], none)).addShort rest = .ok next ↔
              ∃ given, givenShort? r.known rest = some given ∧
                Admissible (r.whole ++ ([o] ++ given.1)) ∧
                next = r.giving ([o] ++ given.1, given.2)) := by
          intro o ho
          have hih := @ih (r.giving ([o], none)) (by rw [side_giving]; exact ho) rfl (by simp)
          rw [hih, known_giving, whole_giving]
          simp only [giving_giving, List.append_assoc]
        by_cases hasks : option = .help ∨ option = .version
        · simp [givenBy?, htakes, hasks]
        · simp only [givenBy?, htakes, hasks, Bool.false_eq_true, if_false, Option.some.injEq,
            Option.bind_some, Option.bind_eq_some_iff, pure]
          constructor
          · rintro ⟨_, ⟨_, rfl, hfirst, rfl⟩, hnext⟩
            obtain ⟨given, hgiven, hmore, rfl⟩ := (hrest _ hfirst).mp hnext
            exact ⟨_, ⟨given, hgiven, rfl⟩, hmore, rfl⟩
          · rintro ⟨_, ⟨given, hgiven, rfl⟩, hmore, rfl⟩
            have hfirst : Admissible (r.whole ++ [⟨option, ""⟩]) := by
              rw [← List.append_assoc] at hmore
              exact hmore.of_append
            exact ⟨_, ⟨_, rfl, hfirst, rfl⟩, (hrest _ hfirst).mpr ⟨given, hgiven, hmore, rfl⟩⟩

/-- What an argument that begins with a hyphen gives. -/
def given? (known : List OptionName) (text : String) :
    Option (List Occurrence × Option OptionName) :=
  match text.toList with
  | '-' :: '-' :: body => givenLong? known body
  | '-' :: c :: rest => givenShort? known (c :: rest)
  | _ => none

/-- What one more argument can do to a reading. -/
inductive Reads (r : Reading) (text : String) : Reading → Prop where
  | value {option : OptionName} (hpending : r.pending = some option)
      (hfits : option.isFree = true ∨ looksLikeOption text = false) :
      Reads r text { r with pending := none, waiting := some ⟨option, text⟩ }
  | ended (hpending : r.pending = none) (hopen : r.operandsOnly = false) (htext : text = "--") :
      Reads r text { r with operandsOnly := true }
  | options {given : List Occurrence × Option OptionName} (hpending : r.pending = none)
      (hopen : r.operandsOnly = false) (htext : text ≠ "--")
      (hgiven : given? r.known text = some given) (hside : Admissible (r.whole ++ given.1)) :
      Reads r text (r.giving given)
  | command {command : CommandName} (hpending : r.pending = none) (hopen : r.operandsOnly = false)
      (hplain : looksLikeOption text = false) (hcommand : r.command = none)
      (hname : CommandName.ofText? text = some command) :
      Reads r text { r with command := some command, waiting := none, deferred := r.waiting }
  | operand {command : CommandName} (hpending : r.pending = none)
      (hplain : r.operandsOnly = true ∨ looksLikeOption text = false)
      (hcommand : r.command = some command)
      (hlimit : command.operandLimit.any (· ≤ r.operands.length) = false) (htext : text ≠ "")
      (hside : Admissible r.whole) :
      Reads r text { r.withSide r.whole with operands := r.operands ++ [text] }

theorem given?_of_plain {known : List OptionName} {text : String}
    (h : looksLikeOption text = false) : given? known text = none := by
  unfold given?
  unfold looksLikeOption at h
  split at h
  · cases h
  · next hother =>
    split
    · next hlist => exact absurd hlist (hother _ _)
    · next hlist => exact absurd hlist (hother _ _)
    · rfl

theorem ne_hyphens_of_plain {text : String} (h : looksLikeOption text = false) : text ≠ "--" := by
  rintro rfl
  cases h

theorem addOperand_eq_ok_iff {r next : Reading} {text : String} (h : Admissible r.side)
    (hpending : r.pending = none)
    (hplain : r.operandsOnly = true ∨ looksLikeOption text = false) :
    r.addOperand text = .ok next ↔ Reads r text next := by
  constructor
  · intro hadd
    unfold addOperand at hadd
    split at hadd
    · next hcommand =>
      split at hadd
      · cases hadd
      · next hopen =>
        split at hadd
        · next command hname =>
          cases hadd
          have hopen : r.operandsOnly = false := Bool.eq_false_iff.mpr hopen
          rw [hopen] at hplain
          exact .command hpending hopen (hplain.resolve_left (by decide)) hcommand hname
        · cases hadd
    · next command hcommand =>
      obtain ⟨settled, hsettle, hadd⟩ := bind_eq_ok_iff.mp hadd
      obtain ⟨rfl, hwhole⟩ := (settle_eq_ok_iff h).mp hsettle
      split at hadd
      · cases hadd
      · next hlimit =>
        split at hadd
        · cases hadd
        · next htext =>
          cases hadd
          rw [operands_withSide] at hlimit ⊢
          exact .operand hpending hplain hcommand (Bool.eq_false_iff.mpr hlimit) htext hwhole
  · intro hreads
    unfold addOperand
    cases hreads with
    | value hsome => rw [hpending] at hsome; cases hsome
    | ended _ hopen htext =>
      rw [hopen, htext] at hplain
      rcases hplain with hplain | hplain <;> cases hplain
    | options _ hopen _ hgiven =>
      rw [hopen] at hplain
      rw [given?_of_plain (hplain.resolve_left (by decide))] at hgiven
      cases hgiven
    | command _ hopen _ hcommand hname => simp [hcommand, hopen, hname]
    | operand _ _ hcommand hlimit htext hside =>
      rw [hcommand]
      refine bind_eq_ok_iff.mpr ⟨_, (settle_eq_ok_iff h).mpr ⟨rfl, hside⟩, ?_⟩
      rw [operands_withSide, hlimit, if_neg (by decide), if_neg htext]
      rfl

theorem reads_iff_of_pending {r next : Reading} {text : String} {option : OptionName}
    (hpending : r.pending = some option) :
    Reads r text next ↔ (option.isFree = true ∨ looksLikeOption text = false) ∧
      next = { r with pending := none, waiting := some ⟨option, text⟩ } := by
  constructor
  · intro hreads
    cases hreads with
    | value hsome hfits =>
      cases hpending.symm.trans hsome
      exact ⟨hfits, rfl⟩
    | ended hnone | options hnone | command hnone | operand hnone =>
      rw [hpending] at hnone
      cases hnone
  · rintro ⟨hfits, rfl⟩
    exact .value hpending hfits

theorem reads_iff_of_hyphens {r next : Reading} (hpending : r.pending = none)
    (hopen : r.operandsOnly = false) :
    Reads r "--" next ↔ next = { r with operandsOnly := true } := by
  constructor
  · intro hreads
    cases hreads with
    | ended => rfl
    | value hsome => rw [hpending] at hsome; cases hsome
    | options _ _ htext => exact absurd rfl htext
    | command _ _ hplain => cases hplain
    | operand _ hplain =>
      rw [hopen] at hplain
      rcases hplain with hplain | hplain <;> cases hplain
  · rintro rfl
    exact .ended hpending hopen rfl

theorem reads_iff_of_looksLikeOption {r next : Reading} {text : String}
    (hpending : r.pending = none) (hopen : r.operandsOnly = false)
    (hlooks : looksLikeOption text = true) (htext : text ≠ "--") :
    Reads r text next ↔ ∃ given, given? r.known text = some given ∧
      Admissible (r.whole ++ given.1) ∧ next = r.giving given := by
  constructor
  · intro hreads
    cases hreads with
    | options _ _ _ hgiven hside => exact ⟨_, hgiven, hside, rfl⟩
    | value hsome => rw [hpending] at hsome; cases hsome
    | ended _ _ hhyphens => exact absurd hhyphens htext
    | command _ _ hplain => rw [hlooks] at hplain; cases hplain
    | operand _ hplain =>
      rw [hopen, hlooks] at hplain
      rcases hplain with hplain | hplain <;> cases hplain
  · rintro ⟨given, hgiven, hside, rfl⟩
    exact .options hpending hopen htext hgiven hside

theorem step_eq_ok_iff {r next : Reading} {text : String} (h : Admissible r.side)
    (hhelp : r.command ≠ some .help) : r.step text = .ok next ↔ Reads r text next := by
  unfold step
  cases hpending : r.pending with
  | some option =>
    rw [reads_iff_of_pending hpending]
    dsimp only
    cases option.isFree <;> cases looksLikeOption text <;> simp <;> exact eq_comm
  | none =>
    dsimp only
    cases hopen : r.operandsOnly with
    | true =>
      simp only [Bool.true_or, if_true]
      exact addOperand_eq_ok_iff h hpending (Or.inl hopen)
    | false =>
      rw [if_neg (by simp [hhelp])]
      split
      · next hlist =>
        obtain rfl : text = "--" := String.toList_inj.mp hlist
        rw [reads_iff_of_hyphens hpending hopen, Except.ok.injEq, hpending]
        exact eq_comm
      · next body hbody hlist =>
        have hlooks : looksLikeOption text = true := by simp [looksLikeOption, hlist]
        have htext : text ≠ "--" := by
          rintro rfl
          exact hbody (List.cons.inj (List.cons.inj hlist).2).2.symm
        rw [reads_iff_of_looksLikeOption hpending hopen hlooks htext, given?, hlist]
        exact addLong_eq_ok_iff h hpending
      · next c rest _ hlong hlist =>
        have hlooks : looksLikeOption text = true := by simp [looksLikeOption, hlist]
        have htext : text ≠ "--" := by
          rintro rfl
          exact hlong (List.cons.inj (List.cons.inj hlist).2).1.symm
        rw [reads_iff_of_looksLikeOption hpending hopen hlooks htext, given?, hlist]
        split
        · next hhyphen => exact absurd (List.cons.inj (List.cons.inj hhyphen).2).1 hlong
        · next heq =>
          cases heq
          exact addShort_eq_ok_iff h hpending (by simp)
        · next hother => exact absurd rfl (hother _ _)
      · next hhyphens hlong hshort =>
        have hplain : looksLikeOption text = false := by
          unfold looksLikeOption
          split
          · next hlist => exact absurd hlist (hshort _ _)
          · rfl
        exact addOperand_eq_ok_iff h hpending (Or.inr hplain)

/-! ## Where options come from -/

/-- The text after two hyphens is the name of the option, and after an equals
sign the value. -/
theorem body_of_givenLong? {known : List OptionName} {body : List Char}
    {given : List Occurrence × Option OptionName} (h : givenLong? known body = some given) :
    ∃ option ∈ known,
      (body = option.long.toList ∧ givenBy? option none = some given) ∨
      ∃ value, body = option.long.toList ++ '=' :: value ∧
        givenBy? option (some (String.ofList value)) = some given := by
  unfold givenLong? at h
  obtain ⟨option, hfind, hgiven⟩ := Option.bind_eq_some_iff.mp h
  have hname : option.long.toList = body.takeWhile (· != '=') := by
    have := List.find?_some hfind
    rw [beq_iff_eq] at this
    rw [this, String.toList_ofList]
  have hsplit := List.takeWhile_append_dropWhile (p := (· != '=')) (l := body)
  refine ⟨option, List.mem_of_find?_eq_some hfind, ?_⟩
  cases hdrop : body.dropWhile (· != '=') with
  | nil =>
    rw [hdrop, List.append_nil] at hsplit
    rw [hdrop] at hgiven
    exact Or.inl ⟨by rw [hname, hsplit], hgiven⟩
  | cons c value =>
    have hc : c = '=' := by
      have := List.head_dropWhile_not (p := (· != '=')) (l := body) (by rw [hdrop]; simp)
      simpa [hdrop] using this
    rw [hdrop, hc] at hsplit
    rw [hdrop] at hgiven
    exact Or.inr ⟨value, by rw [hname, hsplit], hgiven⟩

/-- The options that an argument gives are known, and the one whose value
follows takes one. -/
structure GivenFrom (known : List OptionName) (given : List Occurrence × Option OptionName) :
    Prop where
  options : ∀ o ∈ given.1, o.option ∈ known
  pending : ∀ option, given.2 = some option → option ∈ known ∧ option.takesValue = true

theorem givenFrom_of_givenBy? {known : List OptionName} {option : OptionName}
    (hknown : option ∈ known) {attached : Option String}
    {given : List Occurrence × Option OptionName} (h : givenBy? option attached = some given) :
    GivenFrom known given := by
  unfold givenBy? at h
  split at h
  · split at h
    · cases h
      exact ⟨by simp [hknown], by simp⟩
    · cases h
  · split at h
    · next htakes =>
      cases h
      exact ⟨by simp, by simp [hknown, htakes]⟩
    · split at h
      · cases h
      · cases h
        exact ⟨by simp [hknown], by simp⟩

/-- The value of `-o` follows if it is the last letter; the other letters
that are accepted stand for `--verbose`. -/
theorem givenShort?_eq_some {known : List OptionName} {letters : List Char}
    {given : List Occurrence × Option OptionName} (h : givenShort? known letters = some given) :
    (given.2 = if letters.dropWhile (· != 'o') == ['o'] then some .out else none) ∧
      (∀ o ∈ given.1, o.option = .verbose ∨ o.option = .out) ∧ GivenFrom known given := by
  induction letters generalizing given with
  | nil =>
    cases h
    exact ⟨rfl, by simp, by simp, by simp⟩
  | cons c rest ih =>
    unfold givenShort? at h
    obtain ⟨option, hfind, hgiven⟩ := Option.bind_eq_some_iff.mp h
    have hknown := List.mem_of_find?_eq_some hfind
    have hshort : option.short? = some c := by simpa using List.find?_some hfind
    cases option with
    | out =>
      cases hshort
      rw [if_pos (show OptionName.out.takesValue = true from rfl)] at hgiven
      refine and_assoc.mp ⟨?_, givenFrom_of_givenBy? hknown hgiven⟩
      split at hgiven
      · cases hgiven
        exact ⟨rfl, by simp⟩
      · cases hgiven
        exact ⟨rfl, by simp⟩
      · next hrest _ =>
        cases hgiven
        have hmore : rest ≠ [] := hrest
        simp [hmore]
    | verbose =>
      cases hshort
      rw [if_neg (by decide)] at hgiven
      obtain ⟨first, hfirst, hgiven⟩ := Option.bind_eq_some_iff.mp hgiven
      obtain ⟨others, hothers, hgiven⟩ := Option.bind_eq_some_iff.mp hgiven
      cases hfirst
      cases hgiven
      obtain ⟨hpending, hoptions, hfrom⟩ := ih hothers
      refine ⟨by simpa using hpending, ?_, ?_, hfrom.pending⟩
      · intro o ho
        rcases List.mem_cons.mp ho with rfl | ho
        · exact Or.inl rfl
        · exact hoptions o ho
      · intro o ho
        rcases List.mem_cons.mp ho with rfl | ho
        · exact hknown
        · exact hfrom.options o ho
    | help => cases hgiven
    | version => cases hgiven
    | output | quiet | config | name | root | program | arg => cases hshort

theorem givenFrom_of_given? {known : List OptionName} {text : String}
    {given : List Occurrence × Option OptionName} (h : given? known text = some given) :
    GivenFrom known given := by
  unfold given? at h
  split at h
  · obtain ⟨option, hknown, ⟨_, hgiven⟩ | ⟨value, _, hgiven⟩⟩ := body_of_givenLong? h
    · exact givenFrom_of_givenBy? hknown hgiven
    · exact givenFrom_of_givenBy? hknown hgiven
  · exact (givenShort?_eq_some h).2.2
  · cases h

/-! ## Whole lines -/

/-- What every reading of a line is like. -/
structure Orderly (r : Reading) : Prop where
  outer : Admissible r.outer
  inner : Admissible r.inner
  first : r.command = none → r.inner = []
  known : ∀ o ∈ r.before, o.option ∈ CommandName.outerOptions
  settled : ∀ option, r.pending = some option → r.waiting = none
  pending : ∀ option, r.pending = some option →
    option.takesValue = true ∧ (r.command = none → option ∈ CommandName.outerOptions)
  operand : r.operandsOnly = true → r.pending = none

theorem Orderly.side {r : Reading} (h : r.Orderly) : Admissible r.side := by
  unfold Reading.side
  split
  · exact h.inner
  · exact h.outer

theorem Orderly.withSide {r : Reading} (h : r.Orderly) {side : List Occurrence}
    (hside : Admissible side)
    (hknown : r.command = none → ∀ o ∈ side, o.option ∈ CommandName.outerOptions)
    {pending : Option OptionName} (hpending : ∀ option, pending = some option →
      option.takesValue = true ∧ (r.command = none → option ∈ CommandName.outerOptions))
    (hopen : r.operandsOnly = true → pending = none) (operands : List String) :
    Orderly { r.withSide side with pending, operands } := by
  refine ⟨?_, ?_, ?_, ?_, ?_, ?_, ?_⟩
  · show Admissible (r.withSide side).outer
    unfold Reading.withSide
    split
    · exact h.outer
    · exact hside
  · show Admissible (r.withSide side).inner
    unfold Reading.withSide
    split
    · exact hside
    · exact h.inner
  · intro hcommand
    have hnone : r.command = none := by simpa using hcommand
    show (r.withSide side).inner = []
    rw [Reading.withSide, hnone]
    exact h.first hnone
  · intro o ho
    have ho : o ∈ (r.withSide side).before := ho
    rw [before_withSide] at ho
    cases hcommand : r.command with
    | some command => exact h.known o (by simpa [hcommand] using ho)
    | none => exact hknown hcommand o (by simpa [hcommand] using ho)
  · intro _ _
    exact waiting_withSide r side
  · intro option hoption
    simpa using hpending option hoption
  · simpa using hopen

theorem Orderly.reads {r next : Reading} {text : String} (h : r.Orderly)
    (hreads : Reads r text next) : next.Orderly := by
  cases hreads with
  | @value option hpending hfits =>
    have hwaiting := h.settled _ hpending
    refine ⟨h.outer, h.inner, h.first, ?_, ?_, ?_, fun _ => rfl⟩
    · intro o ho
      cases hcommand : r.command with
      | some command => exact h.known o (by simpa [before, hcommand] using ho)
      | none =>
        have ho : o ∈ r.outer ∨ o = ⟨option, text⟩ := by
          simpa [before, whole, Reading.side, hcommand] using ho
        rcases ho with ho | rfl
        · exact h.known o (by simp [before, whole, Reading.side, hcommand, ho])
        · exact (h.pending _ hpending).2 hcommand
    · intro _ hsome
      cases hsome
    · intro _ hsome
      cases hsome
  | ended hpending hopen htext =>
    exact ⟨h.outer, h.inner, h.first, h.known, h.settled, h.pending, fun _ => hpending⟩
  | @options given hpending hopen htext hgiven hside =>
    have hfrom := givenFrom_of_given? hgiven
    have hstart : r.command = none → r.known = CommandName.outerOptions := by
      intro hcommand
      rw [Reading.known, hcommand]
      rfl
    refine h.withSide hside ?_ ?_ ?_ _
    · intro hcommand o ho
      rcases List.mem_append.mp ho with ho | ho
      · exact h.known o (by simpa [before, hcommand] using ho)
      · exact hstart hcommand ▸ hfrom.options o ho
    · intro option hoption
      obtain ⟨hknown, htakes⟩ := hfrom.pending option hoption
      exact ⟨htakes, fun hcommand => hstart hcommand ▸ hknown⟩
    · intro honly
      rw [hopen] at honly
      cases honly
  | command hpending hopen hplain hcommand hname =>
    refine ⟨h.outer, h.inner, nofun, ?_, ?_, ?_, fun _ => hpending⟩
    · intro o ho
      exact h.known o (by simpa [before, whole, Reading.side, hcommand] using ho)
    · intro _ _
      rfl
    · intro option hsome
      rw [hpending] at hsome
      cases hsome
  | operand hpending hplain hcommand hlimit htext hside =>
    have hnone : (r.withSide r.whole).pending = none := by rw [pending_withSide, hpending]
    refine h.withSide hside ?_ ?_ (fun _ => hnone) _
    · intro hstart
      rw [hcommand] at hstart
      cases hstart
    · intro option hoption
      rw [hnone] at hoption
      cases hoption

theorem orderly_empty : Orderly {} :=
  ⟨admissible_nil, admissible_nil, fun _ => rfl, nofun, nofun, nofun, nofun⟩

theorem command_of_settle {r next : Reading} (h : r.settle = .ok next) :
    next.command = r.command := by
  unfold settle add at h
  split at h
  · cases h
    rfl
  · obtain ⟨side, _, hnext⟩ := bind_eq_ok_iff.mp h
    cases hnext
    split <;> rfl

/-- Whatever follows the command `help` leaves it. -/
theorem command_help_of_step {r next : Reading} {text : String}
    (hcommand : r.command = some .help) (h : r.step text = .ok next) :
    next.command = some .help := by
  unfold step at h
  split at h
  · split at h
    · cases h
      exact hcommand
    · cases h
  · rw [hcommand, if_pos (by simp)] at h
    unfold addOperand at h
    rw [hcommand] at h
    obtain ⟨settled, hsettle, h⟩ := bind_eq_ok_iff.mp h
    have hsettled := command_of_settle hsettle
    split at h
    · cases h
    · split at h
      · cases h
      · cases h
        rw [← hcommand, ← hsettled]

theorem command_help_of_foldlM {args : List String} {r last : Reading}
    (hcommand : r.command = some .help) (h : args.foldlM step r = .ok last) :
    last.command = some .help := by
  induction args generalizing r with
  | nil =>
    cases h
    exact hcommand
  | cons text rest ih =>
    rw [List.foldlM_cons] at h
    obtain ⟨next, hstep, h⟩ := bind_eq_ok_iff.mp h
    exact ih (command_help_of_step hcommand hstep) h

/-! ## The end of a line -/

/-- The reading with all its options looked at. -/
def all (r : Reading) : Reading :=
  { r with outer := r.before, inner := r.after, waiting := none, deferred := none }

def request (r : Reading) (action : Action) : Request :=
  { presentation :=
      { format := if r.value? .output = some "json" then Format.json else .text
        quiet := r.has .quiet }
    config := r.value? .config
    action }

theorem settleDeferred_eq_ok_iff {r next : Reading} (h : Admissible r.outer) :
    r.settleDeferred = .ok next ↔
      next = { r with outer := r.outer ++ r.deferred.toList, deferred := none } ∧
        Admissible (r.outer ++ r.deferred.toList) := by
  unfold settleDeferred
  cases hdeferred : r.deferred with
  | none =>
    have hsame : { r with outer := r.outer ++ [], deferred := none } = r := by
      rw [List.append_nil, ← hdeferred]
    simp only [Option.toList_none, hsame]
    simp [h, eq_comm]
  | some o =>
    simp only [bind_eq_ok_iff, extend_eq_ok_iff h, Option.toList_some]
    constructor
    · rintro ⟨outer, ⟨rfl, hmore⟩, hnext⟩
      cases hnext
      exact ⟨rfl, hmore⟩
    · rintro ⟨rfl, hmore⟩
      exact ⟨_, ⟨rfl, hmore⟩, rfl⟩

theorem value?_eq_inner {r : Reading} (h : ∀ o ∈ r.outer, o.option ∈ CommandName.outerOptions)
    {option : OptionName} (hoption : option ∉ CommandName.outerOptions) :
    r.value? option = (r.inner.find? (·.option == option)).map Occurrence.value := by
  have hnone : r.outer.find? (·.option == option) = none := by
    rw [List.find?_eq_none]
    intro o ho hsame
    rw [beq_iff_eq] at hsame
    exact hoption (hsame ▸ h o ho)
  simp [value?, hnone]

theorem action_congr {r s : Reading} (hcommand : r.command = s.command)
    (hoperands : r.operands = s.operands)
    (hvalue : ∀ option, option ∉ CommandName.outerOptions → r.value? option = s.value? option)
    (hargs : r.values .arg = s.values .arg) : r.action = s.action := by
  have hschema : ∀ path, r.schema path = s.schema path := by
    intro path
    rw [schema, schema, hvalue .name (by decide), hvalue .root (by decide)]
  unfold action
  rw [hcommand, hoperands, hvalue .out (by decide), hvalue .program (by decide), hargs]
  simp only [hschema]

theorem action_of_none {r : Reading} (h : r.command = none) :
    r.action = .error (.usage .commandMissing) := by
  rw [action, h]

theorem finish_eq_ok_iff {r : Reading} (h : r.Orderly) {request : Request} :
    r.finish = .ok request ↔ r.pending = none ∧ Admissible r.before ∧ Admissible r.after ∧
      ∃ action, r.all.action = .ok action ∧ request = r.all.request action := by
  unfold finish
  cases hpending : r.pending with
  | some option => simp
  | none =>
    simp only [bind_eq_ok_iff, settle_eq_ok_iff h.side, true_and]
    cases hcommand : r.command with
    | none =>
      have hall : r.all.action = .error (.usage .commandMissing) := action_of_none hcommand
      have hside : (r.withSide r.whole).action = .error (.usage .commandMissing) :=
        action_of_none (by rw [command_withSide, hcommand])
      constructor
      · rintro ⟨_, ⟨rfl, _⟩, _, haction, _⟩
        cases hside.symm.trans haction
      · rintro ⟨_, _, _, haction, _⟩
        cases hall.symm.trans haction
    | some command =>
      have hbefore : r.before = r.outer ++ r.deferred.toList := by simp [before, hcommand]
      have hafter : r.after = r.whole := by simp [after, hcommand]
      have hside : r.withSide r.whole = { r with inner := r.whole, waiting := none } := by
        simp [withSide, hcommand]
      have hall : { r.withSide r.whole with
          outer := (r.withSide r.whole).outer ++ (r.withSide r.whole).deferred.toList
          deferred := none } = r.all := by
        rw [hside, all, hbefore, hafter]
      have hknown : ∀ o ∈ r.outer, o.option ∈ CommandName.outerOptions := by
        intro o ho
        exact h.known o (by rw [hbefore]; exact List.mem_append_left _ ho)
      have haction : (r.withSide r.whole).action = r.all.action := by
        rw [hside]
        refine action_congr rfl rfl ?_ ?_
        · intro option hoption
          rw [@value?_eq_inner { r with inner := r.whole, waiting := none } hknown _ hoption,
            @value?_eq_inner r.all h.known _ hoption, all, hafter]
        · rw [all, hafter]
          rfl
      have houter : Admissible (r.withSide r.whole).outer := by
        rw [hside]
        exact h.outer
      rw [hafter]
      constructor
      · rintro ⟨_, ⟨rfl, hwhole⟩, action, hact, last, hlast, hrequest⟩
        obtain ⟨rfl, hmore⟩ := (settleDeferred_eq_ok_iff houter).mp hlast
        rw [hall] at hrequest
        cases hrequest
        rw [hside] at hmore
        rw [haction] at hact
        exact ⟨by rw [hbefore]; exact hmore, hwhole, action, hact, rfl⟩
      · rintro ⟨hmore, hwhole, action, hact, rfl⟩
        rw [hbefore] at hmore
        refine ⟨_, ⟨rfl, hwhole⟩, action, haction.trans hact, r.all, ?_, rfl⟩
        rw [settleDeferred_eq_ok_iff houter, hall, hside]
        exact ⟨rfl, hmore⟩

theorem finish_help {r : Reading} (hcommand : r.command = some .help) {request : Request} :
    r.finish ≠ .ok request := by
  intro h
  unfold finish at h
  split at h
  · cases h
  · obtain ⟨settled, hsettle, h⟩ := bind_eq_ok_iff.mp h
    obtain ⟨action, haction, _⟩ := bind_eq_ok_iff.mp h
    rw [Reading.action, command_of_settle hsettle, hcommand] at haction
    dsimp only at haction
    split at haction <;> cases haction

end Reading

end TreeSchema.Command
