import Pseudocode.Config
import Pseudocode.Line.Text

namespace Pseudocode

structure Image where
  arch : Arch
  symbols : Symbols
  edges : Edges

structure Function where
  name : String
  stream : Stream
  tree : Tree

/-- What the passes make of a function. -/
structure Recovered where
  tree : Tree
  findings : Findings
  canary : Option Canary.Match

namespace Config

/-- Every function starts without findings, so no name and no mark passes from one to another. -/
def decompile (c : Config) (symbols : Symbols) (s : Stream) (t : Tree) : Recovered :=
  let start := Findings.start c.stem
  let fusion := c.runs .conditionFusion
  let tree := if fusion then t.fuse s else t
  let fused := if fusion then start.fuse s t else start
  let named := if c.runs .stackSlots then fused.recoverSlots s tree else fused
  let guarded :=
    if c.runs .canaryGuard then named.recoverCanary c.canary symbols s else (named, none)
  ⟨tree, guarded.1, guarded.2⟩

def style (c : Config) (edges : Edges) (s : Stream) (t : Tree) : Style :=
  ⟨c.indent, c.comments, if c.colors then some (t.colors s edges) else none⟩

def render (c : Config) (image : Image) (name : String) (s : Stream) (r : Recovered) : String :=
  let scene : Scene := ⟨image.arch, s, r.findings.slots, image.symbols⟩
  Line.renderAll scene (c.style image.edges s r.tree) (Line.ofFunction s r.findings name r.tree)

end Config

end Pseudocode
