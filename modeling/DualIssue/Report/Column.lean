/-!
# Columns of text
-/

namespace DualIssue

/-- Blanks that fill a text up to a width; none if it is wider. -/
def fill (width : Nat) (s : String) : String :=
  String.ofList (List.replicate (width - s.length) ' ')

def alignRight (width : Nat) (s : String) : String := fill width s ++ s

def alignLeft (width : Nat) (s : String) : String := s ++ fill width s

end DualIssue
