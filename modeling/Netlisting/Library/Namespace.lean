import Netlisting.Expr.Parser

/-!
# Namespaces

A namespace is a list of identifiers with points between them.
-/

namespace Netlisting.Library

/-- Reads on inside an identifier, or at its start. -/
def acceptsFrom (atStart : Bool) : List Char → Bool
  | [] => !atStart
  | c :: rest =>
    if atStart then Expr.isNameStart c && acceptsFrom false rest
    else if c = '.' then acceptsFrom true rest
    else Expr.isNameChar c && acceptsFrom false rest

def isNamespace (text : String) : Bool := acceptsFrom true text.toList

end Netlisting.Library
