/-!
# Descriptions

A description is a number, or a record with a name and labelled parts.  It can
be written on one line, or with each part on a line of its own, indented by four
blanks for each level of nesting.
-/

namespace LatchTree

inductive Description where
  | number (n : Nat)
  | record (name : String) (parts : List (String × Description))

namespace Description

mutual

def inline : Description → String
  | .number n => toString n
  | .record name parts => name ++ " \x7b " ++ inlineParts parts ++ " \x7d"

def inlineParts : List (String × Description) → String
  | [] => ""
  | (label, part) :: rest =>
    label ++ ": " ++ part.inline ++ if rest.isEmpty then "" else ", " ++ inlineParts rest

end

mutual

/-- The first line continues the line before; the margin stands in front of the
last one. -/
def indented (margin : String) : Description → String
  | .number n => toString n
  | .record name parts =>
    name ++ " \x7b\n" ++ indentedParts (margin ++ "    ") parts ++ margin ++ "\x7d"

def indentedParts (margin : String) : List (String × Description) → String
  | [] => ""
  | (label, part) :: rest =>
    margin ++ label ++ ": " ++ part.indented margin ++ ",\n" ++ indentedParts margin rest

end

end Description

end LatchTree
