import Mathlib.Data.List.Forall2
import Pseudocode.Command.Run
import Pseudocode.Proofs.Coverage
import Pseudocode.Proofs.Json.Parse

namespace Pseudocode

section

variable {α β ε : Type} {f : α → Except ε β} {x : α}

end

namespace Listing

end Listing

namespace Program

variable {p : Program} {only : Option String}

end Program

namespace Config

def recovered (c : Config) (image : Image) (f : Function) : Recovered :=
  c.decompile image.symbols f.stream f.tree

def text (c : Config) (image : Image) (f : Function) : String :=
  c.render image f.name f.stream (c.recovered image f)

end Config

namespace Command

variable {p : Program} {only : Option String} {c : Config}

end Command

end Pseudocode
