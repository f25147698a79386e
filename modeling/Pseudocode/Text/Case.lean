namespace Pseudocode.Case

def lowerChar (c : Char) : Char :=
  -- beside the capitals only the Kelvin sign has an ASCII letter as its lower case
  if c = '\u212a' then 'k' else c.toLower

/-- Two texts of which one is plain ASCII in lower case agree up to case exactly when this maps the
other to it. -/
def lower (s : String) : String :=
  String.ofList (s.toList.map lowerChar)

end Pseudocode.Case
