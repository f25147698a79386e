import Pseudocode.Colors
import Pseudocode.Line.Wording

namespace Pseudocode

structure Style where
  indent : String
  comments : Bool
  /-- Addresses are painted if there are colours. -/
  colors : Option Colors

/-- Without comments, their lines are left out. -/
def Style.select (style : Style) (lines : List Line) : List Line :=
  if style.comments then lines else lines.filter (!·.content.isComment)

def Span.render (colors : Option Colors) : Span → String
  | .text s => s
  | .address a =>
    match colors with
    | some c => c.paint a (Hex.literal a.toNat)
    | none => Hex.literal a.toNat

namespace Line

def render (scene : Scene) (style : Style) (line : Line) : String :=
  String.join (List.replicate line.depth style.indent) ++
    String.join ((scene.content line.content).map (Span.render style.colors)) ++ "\n"

def renderAll (scene : Scene) (style : Style) (lines : List Line) : String :=
  String.join ((style.select lines).map (render scene style))

end Line

end Pseudocode
