/-
  Recency.Text.Layout — values written as titled fields, on one line or indented.

  A text is built from parts that are already texts in the same layout. On one line the
  parts are separated by commas; indented, each part has a line of its own, four spaces
  further in than the title, and a comma after it.
-/

namespace Recency.Text

inductive Layout where
  | inline
  | indented
  deriving DecidableEq, Repr

/-- Moves every line but the first four spaces in. -/
def shift (text : String) : String :=
  String.ofList (text.toList.flatMap fun c => if c = '\n' then ['\n', ' ', ' ', ' ', ' '] else [c])

namespace Layout

/-- One part on a line of its own. -/
def line (part : String) : String := "    " ++ shift part ++ ",\n"

/-- `title` and named fields in braces; `more` says that there are fields not shown. -/
def record (l : Layout) (title : String) (fields : List (String × String)) (more : Bool) : String :=
  let parts := fields.map fun (name, value) => name ++ ": " ++ value
  match l with
  | .inline => title ++ " \x7b " ++ ", ".intercalate (if more then parts ++ [".."] else parts) ++ " \x7d"
  | .indented => title ++ " \x7b\n" ++ String.join (parts.map line) ++ (if more then "    ..\n" else "") ++ "\x7d"

/-- `title` around one part in parentheses. -/
def wrap (l : Layout) (title inner : String) : String :=
  match l with
  | .inline => title ++ "(" ++ inner ++ ")"
  | .indented => title ++ "(\n" ++ line inner ++ ")"

/-- Parts in brackets. -/
def listed (l : Layout) (parts : List String) : String :=
  match l, parts with
  | _, [] => "[]"
  | .inline, parts => "[" ++ ", ".intercalate parts ++ "]"
  | .indented, parts => "[\n" ++ String.join (parts.map line) ++ "]"

/-- A value that may be missing. -/
def optional (l : Layout) : Option String → String
  | none => "None"
  | some inner => l.wrap "Some" inner

end Layout

end Recency.Text
