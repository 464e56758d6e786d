import TreeSchema.Command.Line
/-
  Usage

  The text that explains the command line, and the files a request is about.
-/

namespace TreeSchema.Command

def usageText : String :=
  "Usage: hashgram [OPTIONS] <COMMAND>\n\n"
    ++ "Commands:\n"
    ++ "  compile <SCHEMA> [--name <NAME>] [--root <ROOT>] [-o <OUT>]\n"
    ++ "  check <SCHEMA> <DOCUMENTS>... [--name <NAME>] [--root <ROOT>]\n"
    ++ "  build <SCHEMA> [--name <NAME>] [--root <ROOT>] [--program <PROGRAM>] [--arg <ARG>]...\n"
    ++ "  test [DIRECTORY]\n\n"
    ++ "Options:\n"
    ++ "  --output <text|json>\n"
    ++ "  --quiet\n"
    ++ "  -v, --verbose\n"
    ++ "  --config <CONFIG>\n"
    ++ "  -h, --help\n"
    ++ "  -V, --version\n"

/-- The paths an action reads or writes. -/
def Action.paths : Action → List String
  | compile schema out => schema.path :: out.toList
  | check schema documents => schema.path :: documents
  | build schema _ _ => [schema.path]
  | test directory => [directory]

def Request.paths (r : Request) : List String := r.config.toList ++ r.action.paths

end TreeSchema.Command
