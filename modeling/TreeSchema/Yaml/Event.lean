import TreeSchema.Yaml.Token
/-
  YAML events

  The nodes of a document in the order of its text: scalars, aliases, and the
  starts and ends of collections. Where the text leaves out a key, a value or
  an entry, an empty plain scalar stands for it. Tags are written out in
  full.
-/

namespace TreeSchema.Yaml

/-- What may stand before a node: a name to refer to it by, and a tag. -/
structure Properties where
  anchor : Option String
  tag : Option String
  deriving DecidableEq, Repr

inductive Event where
  | alias (name : String)
  | scalar (properties : Properties) (text : String) (style : Style)
  | sequenceStart (properties : Properties)
  | sequenceEnd
  | mappingStart (properties : Properties)
  | mappingEnd
  deriving DecidableEq, Repr

namespace Event

/-- What the handles of tags stand for. -/
abbrev Handles := List (String × String)

/-- A node that is left out. -/
def empty : Event := .scalar { anchor := none, tag := none } "" .plain

/-- The full tag of a written one; `none` if its handle stands for nothing. -/
def fullTag (handles : Handles) (t : TagText) : Option String :=
  if t.handle = "" then some t.suffix else (handles.lookup t.handle).map fun p => p ++ t.suffix

def fullTag? (handles : Handles) : Option TagText → Option (Option String)
  | none => some none
  | some t => (fullTag handles t).map some

/-- Takes an anchor and a tag in either order, each at most once. -/
def takeProperties : List Token → Option String × Option TagText × List Token
  | .anchor a :: .tag t :: rest => (some a, some t, rest)
  | .tag t :: .anchor a :: rest => (some a, some t, rest)
  | .anchor a :: rest => (some a, none, rest)
  | .tag t :: rest => (none, some t, rest)
  | rest => (none, none, rest)

def nextIs (tokens : List Token) (ends : List Token) : Bool := tokens.head?.any ends.contains

/-- Where an entry of a block sequence is left out. -/
def noEntry : List Token := [.blockEntry, .blockEnd]

/-- Where an entry of a sequence without indent is left out. -/
def noPlainEntry : List Token := [.blockEntry, .key, .value, .blockEnd]

/-- Where a key or value of a block mapping is left out. -/
def noBlockPart : List Token := [.key, .value, .blockEnd]

/-- An event for a collection: its start, its parts, its end. -/
def enclose (start finish : Event) (parts : List Event × List Token) : List Event × List Token :=
  (start :: parts.1 ++ [finish], parts.2)

mutual

/-- Takes one node. In block style block collections are allowed, and after a
key or value of a block mapping a sequence that is not indented. -/
def takeNode (handles : Handles) :
    (fuel : Nat) → (block plainSequence : Bool) → List Token → Option (List Event × List Token)
  | 0, _, _, _ => none
  | _ + 1, _, _, .alias name :: rest => some ([.alias name], rest)
  | fuel + 1, block, plainSequence, tokens => do
    let (anchor, tagText, tokens) := takeProperties tokens
    let tag ← fullTag? handles tagText
    let properties : Properties := { anchor, tag }
    match tokens with
    | .scalar text style :: rest => return ([.scalar properties text style], rest)
    | .flowSequenceStart :: rest =>
      (takeFlowEntries handles fuel true rest).map
        (enclose (.sequenceStart properties) .sequenceEnd)
    | .flowMappingStart :: rest =>
      (takeFlowPairs handles fuel true rest).map (enclose (.mappingStart properties) .mappingEnd)
    | .blockEntry :: rest =>
      if plainSequence then
        (takePlainEntries handles fuel (.blockEntry :: rest)).map
          (enclose (.sequenceStart properties) .sequenceEnd)
      else if anchor.isSome || tag.isSome then
        return ([.scalar properties "" .plain], .blockEntry :: rest)
      else none
    | .blockSequenceStart :: rest =>
      if block then
        (takeBlockEntries handles fuel rest).map (enclose (.sequenceStart properties) .sequenceEnd)
      else if anchor.isSome || tag.isSome then
        return ([.scalar properties "" .plain], .blockSequenceStart :: rest)
      else none
    | .blockMappingStart :: rest =>
      if block then
        (takeBlockPairs handles fuel rest).map (enclose (.mappingStart properties) .mappingEnd)
      else if anchor.isSome || tag.isSome then
        return ([.scalar properties "" .plain], .blockMappingStart :: rest)
      else none
    | tokens =>
      if anchor.isSome || tag.isSome then return ([.scalar properties "" .plain], tokens)
      else none
termination_by structural fuel => fuel

/-- Takes a node unless it is left out before one of the tokens given. -/
def takeOptional (handles : Handles) :
    (fuel : Nat) → (block plainSequence : Bool) → (ends : List Token) → List Token →
      Option (List Event × List Token)
  | 0, _, _, _, _ => none
  | fuel + 1, block, plainSequence, ends, tokens =>
    if nextIs tokens ends then some ([.empty], tokens)
    else takeNode handles fuel block plainSequence tokens
termination_by structural fuel => fuel

/-- Takes the entries of an indented block sequence and its end. -/
def takeBlockEntries (handles : Handles) :
    (fuel : Nat) → List Token → Option (List Event × List Token)
  | 0, _ => none
  | fuel + 1, .blockEntry :: rest => do
    let (entry, rest) ← takeOptional handles fuel true false noEntry rest
    let (others, rest) ← takeBlockEntries handles fuel rest
    return (entry ++ others, rest)
  | _ + 1, .blockEnd :: rest => some ([], rest)
  | _ + 1, _ => none
termination_by structural fuel => fuel

/-- Takes the entries of a block sequence that is not indented. -/
def takePlainEntries (handles : Handles) :
    (fuel : Nat) → List Token → Option (List Event × List Token)
  | 0, _ => none
  | fuel + 1, .blockEntry :: rest => do
    let (entry, rest) ← takeOptional handles fuel true false noPlainEntry rest
    let (others, rest) ← takePlainEntries handles fuel rest
    return (entry ++ others, rest)
  | _ + 1, rest => some ([], rest)
termination_by structural fuel => fuel

/-- Takes the keys and values of a block mapping and its end. -/
def takeBlockPairs (handles : Handles) :
    (fuel : Nat) → List Token → Option (List Event × List Token)
  | 0, _ => none
  | fuel + 1, .key :: rest => do
    let (key, rest) ← takeOptional handles fuel true true noBlockPart rest
    let (value, rest) ← match rest with
      | .value :: rest => takeOptional handles fuel true true noBlockPart rest
      | rest => some ([.empty], rest)
    let (others, rest) ← takeBlockPairs handles fuel rest
    return (key ++ value ++ others, rest)
  | _ + 1, .blockEnd :: rest => some ([], rest)
  | _ + 1, _ => none
termination_by structural fuel => fuel

/-- Takes the entries of a flow sequence and its end. A key there makes a
mapping of one pair; where the key itself is left out, so is the token after
it. -/
def takeFlowEntries (handles : Handles) :
    (fuel : Nat) → (first : Bool) → List Token → Option (List Event × List Token)
  | 0, _, _ => none
  | _ + 1, _, .flowSequenceEnd :: rest => some ([], rest)
  | fuel + 1, first, tokens => do
    let tokens ← if first then some tokens else match tokens with
      | .flowEntry :: rest => some rest
      | _ => none
    match tokens with
    | .flowSequenceEnd :: rest => return ([], rest)
    | .key :: rest =>
      let (key, rest) ←
        -- The token that shows the key to be missing is passed as well.
        if nextIs rest [.value, .flowEntry, .flowSequenceEnd] then some ([.empty], rest.tail)
        else takeNode handles fuel false false rest
      let (value, rest) ← match rest with
        | .value :: rest =>
          takeOptional handles fuel false false [.flowEntry, .flowSequenceEnd] rest
        | rest => some ([.empty], rest)
      let (others, rest) ← takeFlowEntries handles fuel false rest
      let start : Event := .mappingStart { anchor := none, tag := none }
      return (start :: key ++ value ++ .mappingEnd :: others, rest)
    | tokens =>
      let (entry, rest) ← takeNode handles fuel false false tokens
      let (others, rest) ← takeFlowEntries handles fuel false rest
      return (entry ++ others, rest)
termination_by structural fuel => fuel

/-- Takes the pairs of a flow mapping and its end. A node without a colon is
a key without a value. -/
def takeFlowPairs (handles : Handles) :
    (fuel : Nat) → (first : Bool) → List Token → Option (List Event × List Token)
  | 0, _, _ => none
  | _ + 1, _, .flowMappingEnd :: rest => some ([], rest)
  | fuel + 1, first, tokens => do
    let tokens ← if first then some tokens else match tokens with
      | .flowEntry :: rest => some rest
      | _ => none
    match tokens with
    | .flowMappingEnd :: rest => return ([], rest)
    | .key :: rest =>
      let (key, rest) ←
        takeOptional handles fuel false false [.value, .flowEntry, .flowMappingEnd] rest
      let (value, rest) ← match rest with
        | .value :: rest =>
          takeOptional handles fuel false false [.flowEntry, .flowMappingEnd] rest
        | rest => some ([.empty], rest)
      let (others, rest) ← takeFlowPairs handles fuel false rest
      return (key ++ value ++ others, rest)
    | tokens =>
      let (key, rest) ← takeNode handles fuel false false tokens
      let (others, rest) ← takeFlowPairs handles fuel false rest
      return (key ++ .empty :: others, rest)
termination_by structural fuel => fuel

end

def defaultHandles : Handles := [("!", "!"), ("!!", "tag:yaml.org,2002:")]

/-- Takes the directives before a document. The version must be one that is
known, and no directive may come twice. -/
def takeDirectives (versionSeen : Bool) (handles : Handles) :
    List Token → Option (Handles × List Token)
  | .version major minor :: rest =>
    if versionSeen || major ≠ 1 || !(minor == 1 || minor == 2) then none
    else takeDirectives true handles rest
  | .tagDirective handle content :: rest =>
    if (handles.lookup handle).isSome then none
    else takeDirectives versionSeen (handles ++ [(handle, content)]) rest
  | rest => some (handles, rest)

/-- Whether a document that has been marked holds nothing. -/
def endsDocument : List Token → Bool
  | [] => true
  | t :: _ => match t with
    | .version .. | .tagDirective .. | .documentStart | .documentEnd => true
    | _ => false

/-- Takes the content of a document. Every call takes a token or goes down to
a part, so that four times the number of tokens is fuel enough. -/
def takeDocument (handles : Handles) (tokens : List Token) : Option (List Event × List Token) :=
  takeNode (handles ++ defaultHandles) (4 * tokens.length + 8) true false tokens

/-- The events of a text's only document; none if it has no document, and
ill-formed if it has several. -/
def ofTokens (tokens : List Token) : Option (List Event) :=
  match tokens with
  | [] => some []
  | tokens => do
    let (events, rest) ←
      if endsDocument tokens && !nextIs tokens [.documentEnd] then do
        let (handles, rest) ← takeDirectives false [] tokens
        match rest with
        | .documentStart :: rest =>
          if endsDocument rest then some ([.empty], rest) else takeDocument handles rest
        | _ => none
      else takeDocument [] tokens
    -- More end marks may follow the document, and nothing else.
    if (rest.dropWhile fun t => t = .documentEnd).isEmpty then return events else none

end Event

end TreeSchema.Yaml
