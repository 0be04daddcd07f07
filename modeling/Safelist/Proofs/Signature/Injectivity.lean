import Safelist.Proofs.Signature.Rearrangement
import Safelist.Proofs.Signature.WellFormed

/-!
# Canonical texts tell documents apart

Two documents that are read have the same canonical text after redaction exactly
when they are the same document up to their literals and a rearrangement that
keeps siblings of one key in order. Nothing else is ever confused.
-/

namespace Safelist.Signature

/-- Redacted documents have the same canonical text exactly when their shapes are
rearrangements of each other. -/
theorem canonicalText_redact_eq_iff {source source' : String} {a b : Document}
    (ha : Document.parse source = .ok a) (hb : Document.parse source' = .ok b) :
    canonicalText (redact a) = canonicalText (redact b) ↔ a.shape.Rearranged b.shape := by
  rw [canonicalText_redact, canonicalText_redact, Document.rearranged_iff]
  refine ⟨fun h => ?_, congrArg Document.print⟩
  have hpa := (Document.wellFormed_of_parse ha).parse_print_sort_shape
  have hpb := (Document.wellFormed_of_parse hb).parse_print_sort_shape
  rw [h, hpb] at hpa
  exact (Except.ok.inj hpa).symm

/-- Two documents that differ in literals and in the order of variables, of arguments and of
selections. -/
theorem canonicalText_redact_eq_iff_reordered :
    ∃ a,
      Document.parse "query ($y: t, $x: [s] = [2.5, \"s\"]) {...f b(y: 1, x: $x) a}" = .ok a ∧
      canonicalText (redact a) = "query($x:[s]=[0,\"\"],$y:t){a b(x:$x,y:0)...f}" ∧
      ∃ b,
        Document.parse "query ($x: [s] = [7, \"\"] $y: t) {a b(x: $x, y: 1e3) ...f}" = .ok b ∧
        canonicalText (redact b) = "query($x:[s]=[0,\"\"],$y:t){a b(x:$x,y:0)...f}" ∧
        a.shape.Rearranged b.shape := by
  refine Document.exists_of_map ?_ fun a ha hta => Document.exists_of_map ?_ fun b hb htb =>
    (canonicalText_redact_eq_iff ha hb).mp (hta.trans htb.symm)
  all_goals
    unfold canonicalText sort canonicalOrder
    simp only [sortByKey_eq_insertionSort]
    decide +kernel

end Safelist.Signature
