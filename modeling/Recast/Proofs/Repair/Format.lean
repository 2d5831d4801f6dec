import Recast.Proofs.Repair.Exact
import Recast.Proofs.Repair.Outcome
import Recast.Proofs.Repair.Renumber

/-!
# Texts that were laid out before

A source text in canonical layout has the code of the text it was made from, with the same ids, at
other places. What the fixing of a text says and does depends on code and ids; places only decide
about the layout, and the layout is canonical already.
-/

namespace Recast

/-! ### Remarks without spans -/

section Remarks

variable {rules : RuleTable} {info info' : TypeInfo}

theorem Remark.values_forget (r : Remark) : r.forget.values = r.values := by
  rw [← renumber_refl, values_renumber]
  exact List.map_id _

theorem Remark.repair?_forget (r : Remark) : r.forget.repair? = r.repair? := by
  cases r <;> rfl

theorem Remark.complaint_forget (r : Remark) :
    r.forget.finding.complaint = r.finding.complaint := by
  rw [← renumber_refl, complaint_renumber]

theorem TypeInfo.Agrees.matches_refl (h : info.Agrees info') (e : PlacedExpr) :
    info.Matches info' id e := fun part _ => by
  rw [part.renumber_id, h.typeOf_forget]

theorem Remark.made?_forget (h : info.Agrees info') (r : Remark) (id : ExprId) :
    r.forget.made? rules info' id = r.made? rules info id := by
  rw [← renumber_refl]
  exact made?_renumber r (fun m _ => h.matches_refl m.value) fun _ _ href => href

theorem reportOn_forget (h : info.Agrees info') (rs : List Remark) :
    reportOn rules info' (rs.map Remark.forget) = reportOn rules info rs := by
  have hplanned : (rs.map Remark.forget).filterMap Remark.repair?
      = rs.filterMap Remark.repair? := by
    rw [List.filterMap_map]
    congr 1
    funext r
    exact r.repair?_forget
  have happlied : (rs.map Remark.forget).filterMap (Remark.mending? rules info')
      = (rs.filterMap (Remark.mending? rules info)).map (Mending.renumber .refl) := by
    rw [List.filterMap_map, List.map_filterMap]
    congr 1
    funext r
    rw [Function.comp_apply, ← r.renumber_refl]
    exact r.mending?_renumber fun m _ => h.matches_refl m.value
  rw [reportOn, reportOn, hplanned, happlied, List.length_map]

section Same

variable {rs rs' : List Remark} (hsame : rs'.map Remark.forget = rs.map Remark.forget)
include hsame

theorem flatMap_values_of_forget : rs'.flatMap Remark.values = rs.flatMap Remark.values := by
  have hforgotten (rs : List Remark) :
      (rs.map Remark.forget).flatMap Remark.values = rs.flatMap Remark.values := by
    rw [List.flatMap_map]
    exact List.flatMap_congr fun r _ => r.values_forget
  rw [← hforgotten, hsame, hforgotten]

theorem messages_of_forget : (rs'.map fun r => r.finding.diagnostic).map Diagnostic.message
    = (rs.map fun r => r.finding.diagnostic).map Diagnostic.message := by
  have hforgotten (rs : List Remark) : (rs.map fun r => r.finding.diagnostic).map
      Diagnostic.message = (rs.map Remark.forget).map fun r => r.finding.complaint.message := by
    rw [List.map_map, List.map_map]
    exact List.map_congr_left fun r _ => congrArg Complaint.message r.complaint_forget.symm
  rw [hforgotten, hforgotten, hsame]

/-- The types that remarks call for depend on the remarks without spans. -/
theorem types_eq_of_forget (h : info.Agrees info') {types types' : ExprId → Option BasicType}
    (hmade : ∀ r ∈ rs, ∀ id ∈ r.values, types id = r.made? rules info id)
    (hrest : ∀ id, id ∉ rs.flatMap Remark.values → types id = none)
    (hmade' : ∀ r ∈ rs', ∀ id ∈ r.values, types' id = r.made? rules info' id)
    (hrest' : ∀ id, id ∉ rs'.flatMap Remark.values → types' id = none) : types = types' := by
  funext id
  by_cases hid : id ∈ rs.flatMap Remark.values
  · obtain ⟨r, hr, hid⟩ := List.mem_flatMap.1 hid
    have hmem : r.forget ∈ rs'.map Remark.forget := hsame ▸ List.mem_map_of_mem hr
    obtain ⟨r', hr', hforget⟩ := List.mem_map.1 hmem
    have hid' : id ∈ r'.values := by rwa [← r'.values_forget, hforget, r.values_forget]
    rw [hmade r hr id hid, hmade' r' hr' id hid', ← r.made?_forget h,
      ← r'.made?_forget (.refl info'), hforget]
  · rw [hrest id hid, hrest' id (flatMap_values_of_forget hsame ▸ hid)]

end Same

end Remarks

/-! ### Fixing a text in canonical layout -/

end Recast
