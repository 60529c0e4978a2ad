/-!
# Outlines

An outline shows nested data over several lines: what a group holds stands between its opening and its
closing line, four places further in, and every item ends in a comma.
-/

namespace StackScript.Text

/-- Nested data: one line, or labelled items between an opening and a closing line. -/
inductive Outline where
  | line (text : String)
  | group (opening : String) (items : List (String × Outline)) (closing : String)

/-- A constructor applied to arguments. -/
def Outline.applied (name : String) (arguments : List Outline) : Outline :=
  .group (name ++ "(") (arguments.map ("", ·)) ")"

/-- A record with named fields. -/
def Outline.record (name : String) (fields : List (String × Outline)) : Outline :=
  .group (name ++ " \x7b") (fields.map fun (label, field) => (label ++ ": ", field)) "\x7d"

/-- A list; an empty one takes a single line. -/
def Outline.list (items : List Outline) : Outline :=
  if items.isEmpty then .line "[]" else .group "[" (items.map ("", ·)) "]"

/-- Write an item's label in front of its first line and a comma behind its last one. -/
def itemLines (label : String) : List String → List String
  | [] => []
  | [only] => [label ++ only ++ ","]
  | first :: rest => (label ++ first) :: rest.dropLast ++ [rest.getLastD "" ++ ","]

mutual

/-- The lines of an outline. -/
def Outline.lines : Outline → List String
  | .line text => [text]
  | .group opening items closing =>
    opening :: (Outline.itemsLines items).map ("    " ++ ·) ++ [closing]

/-- The lines of the items of a group. -/
def Outline.itemsLines : List (String × Outline) → List String
  | [] => []
  | (label, item) :: items => itemLines label item.lines ++ Outline.itemsLines items

end

/-- The text of an outline, without a line break at its end. -/
def Outline.render (outline : Outline) : String :=
  "\n".intercalate outline.lines

end StackScript.Text
