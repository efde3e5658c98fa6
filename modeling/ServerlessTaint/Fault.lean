import ServerlessTaint.Syntax.Token
import ServerlessTaint.Yaml.Token

/-!
# Faults

The causes for which a step of the analysis gives up.
-/

namespace ServerlessTaint

/-- A cause for giving up. Keys are held in the form in which they are shown. -/
inductive Fault where
  | missingKey (shown : String)
  | wrongType
  | missingAttribute
  | indexOutOfRange
  | unassignedName
  | undefinedName
  | badValue (message : Option String)
  | invalidSource (fault : Syntax.SyntaxFault)
  | malformedDocument (fault : Yaml.YamlFault)
  | missingFile
  | fileExists
  | notAFolder
  | isAFolder
  | failedCheck (message : String)
  | notImplemented (message : String)
  | exit (code : String)
  | badPattern
  | endlessNesting
  | arithmetic
  deriving DecidableEq, Repr, Inhabited

end ServerlessTaint
