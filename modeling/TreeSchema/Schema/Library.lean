import TreeSchema.File.Path
import TreeSchema.Schema.Compile
/-
  Schema libraries

  Schema texts held in memory under paths. Two paths that are the same
  without dots name the same text, and the later of two texts counts. A path
  that is no text is shown with U+FFFD for what cannot be read.
-/

namespace TreeSchema.Schema

open File

/-- Schema texts under normalized paths, the latest first. -/
structure Library where
  files : List (List Component × String)

namespace Library

/-- A library of texts under paths, given in the order they are put there. -/
def ofFiles (files : List (List UInt8 × String)) : Library :=
  { files := files.reverse.map fun (path, text) => (normalize path, text) }

def read (library : Library) (path : List UInt8) : Except Error String :=
  match library.files.find? fun (known, _) => known == normalize path with
  | some (_, text) => .ok text
  | none =>
    .error (.unreadable (Text.decodeLossy path)
      ("file not found in memory: " ++ Text.decodeLossy (pathBytes (normalize path))))

def compile (library : Library) (path : List UInt8) (options : Options) :
    Except Error String := do
  let source ← library.read path
  Schema.compile (Text.decodeLossy path) source options

end Library

end TreeSchema.Schema
