import Safelist.Manifest.Recipe
import Safelist.Proofs.Document.Registration
import Safelist.Proofs.Signature.Dropping

/-!
# Literals have no part in records

Whether a document can be registered, its canonical text and its engine signature
depend on the shape of the document alone. So no record and no error tells what
was typed into a document, wherever it stands.
-/

namespace Safelist.Manifest.Recipe

/-- The record of a document is that of its shape. -/
theorem record_shape (name : String) (d : Document) :
    standard.record name d.shape = standard.record name d := by
  have hcheck : d.shape.check = d.check := d.check_map Value.shape
  have htext : Signature.canonicalText (Signature.redact d.shape) =
      Signature.canonicalText (Signature.redact d) := by
    rw [Signature.canonicalText_redact, Signature.canonicalText_redact, Document.shape_shape]
  have hengine := Signature.engineSignature_shape Signature.placeholderName d
  simp only [record, standard, hcheck, htext, hengine]

/-- Documents that differ in their literals alone have the same record or the same error. -/
theorem record_eq_of_shape_eq {a b : Document} (h : a.shape = b.shape) (name : String) :
    standard.record name a = standard.record name b := by
  rw [← record_shape, h, record_shape]

/-- Literals in a default, in a directive on a variable and deep inside an argument, one of
them a block string, do not show. -/
theorem record_eq_of_shape_eq_nested :
    let document (x y z : Value) : Document :=
      ⟨[.operation ⟨.query, some "q", [⟨"v", .list (.named "t"), some (.list [x]),
        [⟨"d", [⟨"a", y⟩]⟩]⟩], [], [.leaf ⟨none, "f", [⟨"o", .object [("k", .list [z])]⟩], []⟩]⟩]⟩
    (document (.int "7") (.float "2.5") (.string "secret" true)).shape =
        (document (.float "0.1") (.int "-3") (.string "\"" false)).shape ∧
      standard.record "q" (document (.int "7") (.float "2.5") (.string "secret" true)) =
        standard.record "q" (document (.float "0.1") (.int "-3") (.string "\"" false)) := by
  intro document
  have hs : (document (.int "7") (.float "2.5") (.string "secret" true)).shape =
      (document (.float "0.1") (.int "-3") (.string "\"" false)).shape := rfl
  exact ⟨hs, record_eq_of_shape_eq hs "q"⟩

end Safelist.Manifest.Recipe
