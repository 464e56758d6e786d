import TreeSchema.Yaml.Event
import TreeSchema.Yaml.Layout
import TreeSchema.Yaml.Scalar
/-
  Reading YAML

  From the events of a document to its value. An alias repeats the node its
  anchor names, as the document stands at its end. Two equal keys in one
  mapping are refused, and so are containers nested too deep and aliases
  followed too often.
-/

namespace TreeSchema.Yaml

/-- The anchors of a document: numbers by name, and places of events by
number. An anchor gets the number of names known before it. -/
structure Anchors where
  numbers : List (String × Nat)
  places : List (Nat × Nat)
  deriving Repr

namespace Anchors

def add (a : Anchors) (name : String) (place : Nat) : Anchors :=
  let number := a.numbers.length
  { numbers := (name, number) :: a.numbers.filter fun (known, _) => known ≠ name
    places := (number, place) :: a.places }

end Anchors

/-- One event with its alias resolved to an anchor's number. -/
inductive Piece where
  | alias (number : Nat)
  | scalar (tag : Option String) (text : String) (style : Style)
  | sequenceStart (tag : Option String)
  | sequenceEnd
  | mappingStart (tag : Option String)
  | mappingEnd
  deriving DecidableEq, Repr

def Anchors.addOptional (a : Anchors) (place : Nat) : Option String → Anchors
  | none => a
  | some name => a.add name place

/-- Resolves aliases in order; one that names no anchor before it is
ill-formed. -/
def resolveAliases (anchors : Anchors) (place : Nat) : List Event → Option (List Piece × Anchors)
  | [] => some ([], anchors)
  | event :: rest => do
    let (piece, anchors) ← match event with
      | .alias name => (anchors.numbers.lookup name).map fun n => (Piece.alias n, anchors)
      | .scalar p text style =>
        some (Piece.scalar p.tag text style, anchors.addOptional place p.anchor)
      | .sequenceStart p => some (Piece.sequenceStart p.tag, anchors.addOptional place p.anchor)
      | .mappingStart p => some (Piece.mappingStart p.tag, anchors.addOptional place p.anchor)
      | .sequenceEnd => some (.sequenceEnd, anchors)
      | .mappingEnd => some (.mappingEnd, anchors)
    let (pieces, anchors) ← resolveAliases anchors (place + 1) rest
    return (piece :: pieces, anchors)

/-- A document ready to be built: its pieces and where anchors stand. -/
structure Pieces where
  pieces : Array Piece
  places : List (Nat × Nat)
  deriving Repr

/-- Where building has got to: the next piece, and how many aliases have been
followed. -/
structure Progress where
  place : Nat
  jumps : Nat
  deriving DecidableEq, Repr

/-- A tag of the document's own, without its mark unless that is all of it. -/
def ownTag? (tag : Option String) : Option String :=
  match tag.map String.toList with
  | some ['!'] => some "!"
  | some ('!' :: rest) => some (String.ofList rest)
  | _ => none

/-- A value under its tag: one of the document's own wraps it. -/
def wrap (tag : Option String) (value : Value) : Value :=
  match ownTag? tag with
  | some own => .tagged own value
  | none => value

/-- The value of a scalar by its style alone. -/
def styledValue? (text : String) : Style → Option Value
  | .plain => plainValue? text
  | .quoted => some (.string text)

/-- The value of a scalar. A tag of the document's own wraps what the style
gives; any other tag decides itself. -/
def scalarValue? (tag : Option String) (text : String) (style : Style) : Option Value :=
  match ownTag? tag, tag with
  | none, some tag => coreValue? tag text
  | _, _ => (styledValue? text style).map (wrap tag)

namespace Pieces

/-- Follows the alias at a place, if there is one: where the node stands, and
the progress with which it is built. -/
def follow (d : Pieces) (p : Progress) : Option (Progress × Bool) :=
  match d.pieces[p.place]? with
  | some (.alias number) => do
    let place ← d.places.lookup number
    if d.pieces.size * 100 < p.jumps + 1 then none
    else some ({ place, jumps := p.jumps + 1 }, true)
  | _ => some (p, false)

/-- Builds items up to the end of a sequence, with `item` for one item. -/
def items (d : Pieces) (item : Progress → Option (Value × Progress)) :
    (fuel : Nat) → Progress → Option (List Value × Progress)
  | 0, _ => none
  | fuel + 1, p =>
    match d.pieces[p.place]? with
    | some .sequenceEnd => some ([], { p with place := p.place + 1 })
    | _ => do
      let (value, p) ← item p
      let (values, p) ← items d item fuel p
      return (value :: values, p)

/-- Builds pairs up to the end of a mapping, with `item` for a key or a
value. `known` are the keys before. -/
def pairs (d : Pieces) (item : Progress → Option (Value × Progress)) :
    (fuel : Nat) → (known : List Value) → Progress → Option (List (Value × Value) × Progress)
  | 0, _, _ => none
  | fuel + 1, known, p =>
    match d.pieces[p.place]? with
    | some .mappingEnd => some ([], { p with place := p.place + 1 })
    | _ => do
      let (k, p) ← item p
      if known.any k.same then none
      else
        let (v, p) ← item p
        let (rest, p) ← pairs d item fuel (k :: known) p
        return ((k, v) :: rest, p)

/-- Builds the node at a place, with containers nested at most `depth`
deep. -/
def build (d : Pieces) : (depth : Nat) → Progress → Option (Value × Progress)
  | depth, p => do
    let (here, jumped) ← d.follow p
    let next : Progress := { here with place := here.place + 1 }
    let (value, left) ← match d.pieces[here.place]? with
      | some (.scalar tag text style) => (scalarValue? tag text style).map fun v => (v, next)
      | some (.sequenceStart tag) =>
        match depth with
        | 0 => none
        | depth + 1 =>
          (d.items (d.build depth) (d.pieces.size + 1) next).map
            fun (values, p) => (wrap tag (.sequence values), p)
      | some (.mappingStart tag) =>
        match depth with
        | 0 => none
        | depth + 1 =>
          (d.pairs (d.build depth) (d.pieces.size + 1) [] next).map
            fun (entries, p) => (wrap tag (.mapping entries), p)
      | _ => none
    return (value, if jumped then { place := p.place + 1, jumps := left.jumps } else left)

end Pieces

def depthLimit : Nat := 128

/-- Reads a whole text. Without a document it is null. -/
def read? (text : String) : Option Value := do
  let tokens ← tokensOf text
  let events ← Event.ofTokens tokens
  if events.isEmpty then return .null
  else
    let (pieces, anchors) ← resolveAliases { numbers := [], places := [] } 0 events
    let d : Pieces := { pieces := pieces.toArray, places := anchors.places }
    let (value, _) ← d.build depthLimit { place := 0, jumps := 0 }
    return value

end TreeSchema.Yaml
