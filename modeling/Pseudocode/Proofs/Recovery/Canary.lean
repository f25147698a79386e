import Pseudocode.Proofs.Recovery.Slots
import Pseudocode.Recovery.Canary

namespace Pseudocode.Canary

variable (settings : Settings) (symbols : Symbols) (s : Stream)

def locate? (t : SlotTable) : Option Site :=
  (guardAddress? settings symbols).bind fun guard => site? settings guard s t

theorem locate?_congr (t u : SlotTable) (h : ∀ d, t.contains d = u.contains d) :
    locate? settings symbols s t = locate? settings symbols s u := by
  have hc : t.contains = u.contains := funext h
  simp only [locate?, site?, slotMoved?, hc]

theorem recover_of_locate?_eq_none (t : SlotTable) (h : locate? settings symbols s t = none) :
    recover settings symbols s t = (t, none) := by
  rw [locate?] at h
  rw [recover, h]

theorem recover_of_locate?_eq_some (t : SlotTable) (site : Site)
    (h : locate? settings symbols s t = some site) :
    recover settings symbols s t =
      (t.appendSuffix site.displacement settings.suffix,
        ((t.appendSuffix site.displacement settings.suffix).nameOf? site.displacement).map
          fun name => ⟨site, name⟩) := by
  rw [locate?] at h
  rw [recover, h]

theorem contains_recover (t : SlotTable) (d : Int64) :
    (recover settings symbols s t).1.contains d = t.contains d := by
  cases h : locate? settings symbols s t with
  | none => rw [recover_of_locate?_eq_none settings symbols s t h]
  | some site =>
    rw [recover_of_locate?_eq_some settings symbols s t site h]
    exact SlotTable.contains_appendSuffix t site.displacement d settings.suffix

/-- A second search finds the same canary under the same name. -/
theorem recover_recover (t : SlotTable) :
    recover settings symbols s (recover settings symbols s t).1 =
      recover settings symbols s t := by
  have hl : locate? settings symbols s (recover settings symbols s t).1 =
      locate? settings symbols s t := by
    apply locate?_congr
    exact contains_recover settings symbols s t
  cases h : locate? settings symbols s t with
  | none =>
    have hr := recover_of_locate?_eq_none settings symbols s t h
    rw [hr, hr]
  | some site =>
    rw [h] at hl
    rw [recover_of_locate?_eq_some settings symbols s _ site hl,
      recover_of_locate?_eq_some settings symbols s t site h]
    simp only [SlotTable.appendSuffix_appendSuffix]

end Pseudocode.Canary
