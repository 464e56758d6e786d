import TreeSchema.Json.Value
import TreeSchema.Schema.Error
/-
  Schema errors for machines

  An error as a JSON object: its class, the file and line it points at, and
  its wording.
-/

namespace TreeSchema.Schema

def Error.report (e : Error) : Json.Value :=
  .object
    [("error", .string e.className),
     ("file", e.file?.elim .null .string),
     ("line", e.line?.elim .null fun line => .number (.integer line.toNat)),
     ("message", .string e.message)]

end TreeSchema.Schema
