import PegAudit.Follow

namespace PegAudit

/-!
# Strands in words

A strand is shown by its elements up to the first that ends the input, and, if
none does, by the tail of its calling node.  A strand whose called node ends
the input is shown as nothing at all.
-/

namespace Strand

/-- The elements that are shown: up to the first that ends the input. -/
def shown
    (chart : Chart)
    (strand : Strand) :
    List NodeId :=
  upTo (fun element => (chart.attrsOf element).endsInput)
    strand.elements

/-- Does one of the elements end the input? -/
def ends
    (chart : Chart)
    (strand : Strand) :
    Bool :=
  strand.elements.any fun element =>
    (chart.attrsOf element).endsInput

/-- An element as it is shown: a choice stands in parentheses. -/
def elementText
    (chart : Chart)
    (element : NodeId) :
    String :=
  let isChoice :=
    match chart.layout.shape? element with
    | some (.group .choice _) => true
    | _ => false
  enclosed isChoice (chart.layout.source element)

/-- The tail of a node as it is shown. -/
def tailText
    (chart : Chart)
    (outer : NodeId) :
    String :=
  "Tail(" ++ chart.layout.name outer ++ ")"

/-- The words a strand is shown by. -/
def words
    (chart : Chart)
    (strand : Strand) :
    List String :=
  let elements := (strand.shown chart).map (elementText chart)
  if strand.ends chart then
    elements
  else
    elements ++ [tailText chart strand.outer]

/-- A strand as it is shown. -/
def text
    (chart : Chart)
    (strand : Strand) :
    String :=
  if (chart.attrsOf strand.called).endsInput then
    ""
  else
    " ".intercalate (strand.words chart)

end Strand

/-- A list of strands as it is shown, one a line. -/
def tailLines
    (chart : Chart)
    (strands : List Strand) :
    String :=
  "\n".intercalate (strands.map (Strand.text chart))

end PegAudit
