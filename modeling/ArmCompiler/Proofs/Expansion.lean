import ArmCompiler.Proofs.DirectGeneration

/-!
# Expanding Code in Any Listing

Code can be expanded whatever the listing holds, and the instructions it stands for can be told from
the labels that its texts have in the end. Nothing is asked of the listing: routines that were added
without those they call do no harm.
-/

namespace ArmCompiler

namespace Listing

variable {limit : Nat} {listing after : Listing}

/-- Texts are only ever added behind those that are there. -/
theorem messages_requireChain {chain : List Routine} (h : listing.requireChain chain = .ok after) :
    listing.messages <+: after.messages := by
  induction chain generalizing listing with
  | nil =>
    cases h
    exact List.prefix_refl _
  | cons r rest ih =>
    rw [requireChain] at h
    split at h
    · cases h
      exact List.prefix_refl _
    · rename_i hmissing
      have hnew : r.label ∉ listing.names := fun hthere => hmissing (has_iff.2 hthere)
      obtain ⟨mid, hdefine, hgrows⟩ := define_eq_ok hnew
      simp only [hdefine, bind, Except.bind] at h
      exact hgrows.messages.trans (ih h)

theorem expand_plain {p : Pseudo} {code : List Instruction}
    (h : listing.expand limit p = .ok (code, after)) :
    code = p.plain limit after.messageLabel ∧ listing.messages <+: after.messages ∧
      ∀ text ∈ p.texts, text ∈ after.messages := by
  cases p with
  | instr i | reserve bytes | unreserve bytes =>
    cases h
    exact ⟨rfl, List.prefix_refl _, by simp [Pseudo.texts]⟩
  | message dst text =>
    cases h
    exact ⟨rfl, messages_intern listing text, by
      simpa [Pseudo.texts] using mem_messages_intern listing text⟩
  | routine cond r =>
    obtain ⟨mid, hmid, h⟩ := bind_eq_ok.1 h
    cases h
    exact ⟨rfl, messages_requireChain hmid, by simp [Pseudo.texts]⟩

/-- Expanded code is the plain code under the final labels. -/
theorem expandAll_plain {code : List Pseudo} {expanded : List Instruction}
    (h : listing.expandAll limit code = .ok (expanded, after)) :
    expanded = code.flatMap (·.plain limit after.messageLabel) ∧
      listing.messages <+: after.messages := by
  induction code generalizing listing expanded with
  | nil =>
    cases h
    exact ⟨rfl, List.prefix_refl _⟩
  | cons p rest ih =>
    obtain ⟨⟨first, mid⟩, hfirst, h⟩ := bind_eq_ok.1 h
    obtain ⟨⟨others, last⟩, hothers, h⟩ := bind_eq_ok.1 h
    cases h
    obtain ⟨hplain, hstarts, htexts⟩ := expand_plain hfirst
    obtain ⟨hrest, hstarts'⟩ := ih hothers
    -- A stored text keeps its label, so the labels in the end are as good as those at the time.
    have hkept : p.plain limit mid.messageLabel = p.plain limit after.messageLabel :=
      p.plain_congr fun text htext => (messageLabel_of_mem hstarts' (htexts text htext)).symm
    exact ⟨by rw [List.flatMap_cons, hplain, hkept, hrest], hstarts.trans hstarts'⟩

end Listing

end ArmCompiler
