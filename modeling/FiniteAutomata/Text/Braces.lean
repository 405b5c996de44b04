/-!
# Listings between braces

Items are listed between braces, with a comma and a space between two of them.
-/

namespace FiniteAutomata.Text

def inBraces (items : List String) : String := "\x7b" ++ ", ".intercalate items ++ "\x7d"

end FiniteAutomata.Text
