import Pseudocode.Decompile
import Pseudocode.Json.Printer

namespace Pseudocode

structure Report where
  name : String
  fused : List UInt64
  slots : List Slot
  canary : Option Canary.Match
  text : String

namespace Report

def address (a : UInt64) : Json :=
  .string (Hex.literal a.toNat)

def slot (s : Slot) : Json :=
  .object [("id", .ofNat s.id), ("name", .string s.name),
    ("displacement", .ofInt s.displacement.toInt), ("size", .ofNat s.size.toNat)]

def canaryMatch (m : Canary.Match) : Json :=
  .object [("call", address m.site.call), ("store", address m.site.store), ("slot", .string m.slot)]

def toJson (r : Report) : Json :=
  .object [("name", .string r.name), ("fused", .ofList address r.fused),
    ("slots", .ofList slot r.slots), ("canary", .ofOption canaryMatch r.canary),
    ("text", .string r.text)]

/-- The text of a report is the one that is printed without reports. -/
def ofRecovered (name : String) (r : Recovered) (text : String) : Report :=
  ⟨name, r.findings.fused.toList, r.findings.slots.slots, r.canary, text⟩

end Report

end Pseudocode
