import SkinMarkup.Proofs.Namespace.Added
import SkinMarkup.Proofs.Namespace.CleanedMarkup

/-!
# Cleaning a document

A document that can be parsed can be parsed when it is cleaned, and its tree has lost
the unused declarations and nothing else. There is nothing to clean after that, and a
declaration that was added before goes again (`cleaned_of_parseStrict`). The document
type declaration is the one thing that stands in the way: the scan may not find the
tags behind one that is written in lower case.
-/

namespace SkinMarkup

/-- **Cleaning a document keeps its meaning, leaves nothing to clean, and undoes the
declaration of a prefix that no element has.** -/
theorem cleaned_of_parseStrict {t : Text} {root : Tag} (h : TidyText t root)
    (hdoctype : NoDoctype t) (hparse : parseStrict t = .ok root) :
    ∃ r : Text, cleanNamespaces t = ⟨r, true⟩ ∧
      (∃ root', parseStrict r = .ok root' ∧ root'.bare = (root.pruned root.prefixes).bare) ∧
      (cleanNamespaces r).text = r ∧
      ∀ n : Namespace, isXmlName n.nsPrefix = true → n.nsPrefix ∉ root.prefixes →
        (∀ c ∈ n.uri, c ≠ '"' ∧ c ≠ '\\') →
        (cleanNamespaces (addNamespace n t).outcome.text).text = r := by
  obtain ⟨w, rfl, hw, htags⟩ := h.exists_markup hdoctype hparse
  have htidied := h.tidied hw rfl htags
  have hlaid := hw.laidOut htidied
  have hsame := hw.mem_used_iff_mem_prefixes htidied htags
  obtain ⟨w', hrewritten, hw', hclean⟩ := hw.exists_cleaned htidied
  refine ⟨w'.source, hclean, ?_, ?_, fun n hprefixed hnot huri => ?_⟩
  · obtain ⟨root', hparse', htags'⟩ := hw'.exists_parseStrict
    have htree : w'.tags [] = (w.tags []).map (Tag.pruned (Segment.used (scan w.source).segments)) :=
      hrewritten.tags_eq (fun selfClosing content hmem p hp =>
        (hw.mem_used htidied).mpr ⟨selfClosing, content, hmem, hp⟩) fun _ _ => rfl
    refine ⟨root', hparse', ?_⟩
    rw [htags', htags, List.map_singleton, Tag.pruned_congr hsame, ← Tag.bare_pruned] at htree
    exact (List.cons.inj htree).1
  · have hagain := hlaid.cleanNamespaces_text
    rw [hclean] at hagain
    exact congrArg Outcome.text hagain
  · have hundone := hlaid.cleanNamespaces_addNamespace (Namespace.writable_of_isXmlName hprefixed huri)
      fun hmem => hnot ((hsame _).mp hmem)
    rw [hundone, hclean]

/-- Two prefixes that are declared twice. No element has `p`, so it goes at both
places; `q` stays at both, with what it means for the elements there. An added `n` goes
with `p`. -/
theorem cleaned_of_shadowing :
    let t := "<q:r xmlns:q='u' xmlns:p='v' a='&lt;'><b xmlns:q='w' xmlns:p='w'><q:c/></b></q:r>".toList
    let r := "<q:r xmlns:q='u' a='&lt;'><b xmlns:q='w'><q:c/></b></q:r>".toList
    let n : Namespace := ⟨['n'], ['x']⟩
    ∃ root, (TidyText t root ∧ NoDoctype t ∧ parseStrict t = .ok root ∧
        isXmlName n.nsPrefix = true ∧ n.nsPrefix ∉ root.prefixes ∧
        ∀ c ∈ n.uri, c ≠ '"' ∧ c ≠ '\\') ∧
      cleanNamespaces t = ⟨r, true⟩ ∧
      (∃ root', parseStrict r = .ok root' ∧ root'.bare = (root.pruned root.prefixes).bare) ∧
      (cleanNamespaces r).text = r ∧ (cleanNamespaces (addNamespace n t).outcome.text).text = r := by
  intro t r n
  have hany : ((parseStrict t).toOption.any fun root => decide (TidyText t root) &&
      decide (NoDoctype t) && decide (n.nsPrefix ∉ root.prefixes)) = true := by
    decide +kernel
  obtain ⟨root, hparse, hproperties⟩ := exists_of_any_toOption hany
  simp only [Bool.and_eq_true, decide_eq_true_eq] at hproperties
  obtain ⟨⟨htidy, hdoctype⟩, hnot⟩ := hproperties
  have hname : isXmlName n.nsPrefix = true := by decide
  have huri : ∀ c ∈ n.uri, c ≠ '"' ∧ c ≠ '\\' := by
    intro c hc
    obtain rfl : c = 'x' := List.mem_singleton.mp hc
    decide
  obtain ⟨r', hclean, htree, hagain, hadded⟩ := cleaned_of_parseStrict htidy hdoctype hparse
  have hown : cleanNamespaces t = ⟨r, true⟩ := by decide +kernel
  obtain rfl : r' = r := congrArg Outcome.text (hclean.symm.trans hown)
  exact ⟨root, ⟨htidy, hdoctype, hparse, hname, hnot, huri⟩, hown, htree, hagain,
    hadded n hname hnot huri⟩

/-- A document type declaration in lower case ends for the scan where it ends for no
reader, and what seems to stand behind it cannot be scanned. -/
theorem not_complete_of_doctype :
    let t := "<!doctype x <<a></b>>><r/>".toList
    containsWord "<!DOCTYPE".toList t = false ∧
      (∃ root, parseStrict t = .ok root ∧ TidyText t root) ∧
      (cleanNamespaces t).complete = false := by
  intro t
  have hany : ((parseStrict t).toOption.any fun root => decide (TidyText t root)) = true := by
    decide +kernel
  obtain ⟨root, hparse, htidy⟩ := exists_of_any_toOption hany
  exact ⟨by decide +kernel, ⟨root, hparse, of_decide_eq_true htidy⟩, by decide +kernel⟩

end SkinMarkup
