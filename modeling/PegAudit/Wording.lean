namespace PegAudit

/-!
# Wording of findings

Names of rules and source texts stand between single quotation marks wherever a
finding mentions them.
-/

/-- A name or source text between single quotation marks. -/
def quoted
    (text : String) :
    String :=
  "'" ++ text ++ "'"

end PegAudit
