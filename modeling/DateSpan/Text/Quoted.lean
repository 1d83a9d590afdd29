/-!
# Quoted text

A text between double quotes, as it stands in the diagnostic form of an error:
quotes, backslashes and the three common control characters are escaped.
-/

namespace DateSpan.Quoted

/-- How a character stands between the quotes. -/
def escape : Char → List Char
  | '"' => ['\\', '"']
  | '\\' => ['\\', '\\']
  | '\t' => ['\\', 't']
  | '\r' => ['\\', 'r']
  | '\n' => ['\\', 'n']
  | c => [c]

def quote (s : String) : String := String.ofList ('"' :: s.toList.flatMap escape ++ ['"'])

end DateSpan.Quoted
