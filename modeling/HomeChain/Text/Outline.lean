/-!
# Outlines

The structure of a value as text sees it: pieces of text, and groups of parts between brackets.
An outline is written on one line, the parts of a group separated by commas, or with one part
to a line, each followed by a comma and indented by four spaces.
-/

namespace HomeChain.Text

/-- The structure of a value. -/
inductive Outline where
  /-- Text without parts. -/
  | text (s : String)
  /-- A key and the value it stands for. -/
  | entry (key value : Outline)
  /-- Parts between brackets. -/
  | group (opening : String) (parts : List Outline) (closing : String)

namespace Outline

mutual

/-- An outline on one line. -/
def flat : Outline → String
  | text s => s
  | entry key value => key.flat ++ ": " ++ value.flat
  | group opening parts closing => opening ++ ", ".intercalate (flatParts parts) ++ closing

/-- Some outlines, each on one line. -/
def flatParts : List Outline → List String
  | [] => []
  | part :: parts => part.flat :: flatParts parts

end

/-- The beginning of a line at some depth. -/
def indent (depth : Nat) : String := "".pushn ' ' (4 * depth)

mutual

/-- An outline with one part to a line, the outermost brackets standing at some depth. -/
def indented (depth : Nat) : Outline → String
  | text s => s
  | entry key value => key.indented depth ++ ": " ++ value.indented depth
  | group opening parts closing =>
    if parts.isEmpty then opening ++ closing
    else opening ++ "\n" ++ String.join (indentedParts (depth + 1) parts) ++ indent depth ++ closing

/-- The lines of the parts of a group. -/
def indentedParts (depth : Nat) : List Outline → List String
  | [] => []
  | part :: parts =>
    (indent depth ++ part.indented depth ++ ",\n") :: indentedParts depth parts

end

end Outline

end HomeChain.Text
