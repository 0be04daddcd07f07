import Safelist.Proofs.Document.Soundness
import Safelist.Proofs.Document.Writing

/-!
# Reading what is written

Writing a well-formed document and reading it again gives the document back, with
every string in it a plain one; and every document that is read is well formed.
So the reduced form tells well-formed documents apart up to the way their strings
are quoted.
-/

namespace Safelist.Document

/-- A well-formed document is read back from its reduced form. -/
theorem WellFormed.parse_print {d : Document} (h : d.WellFormed) :
    parse d.print = .ok d.plain := by
  obtain ⟨stream, hs, hl⟩ := exists_tokenize_print h.wellSpelled
  rw [parse, hs]
  exact h.ofTokens_eq_ok hl

/-- A text denotes a document of which something is known, if that much comes out of reading
the text. -/
theorem exists_of_map {α : Type} {source : String} {f : Document → α} {a : α}
    {p : Document → Prop} (h : (parse source).map f = .ok a)
    (hp : ∀ d, parse source = .ok d → f d = a → p d) :
    ∃ d, parse source = .ok d ∧ f d = a ∧ p d := by
  cases hd : parse source with
  | error e =>
    rw [hd] at h
    cases h
  | ok d =>
    rw [hd] at h
    have hf : f d = a := Except.ok.inj h
    exact ⟨d, rfl, hf, hp d hd hf⟩

/-- Reading yields well-formed documents only, and undoes writing on each of them. -/
theorem parse_and_print_inverse (source : String) (d : Document) :
    (parse source = .ok d → d.WellFormed) ∧ (d.WellFormed → parse d.print = .ok d.plain) :=
  ⟨wellFormed_of_parse, WellFormed.parse_print⟩

/-- A shorthand query behind another definition, words that mean something elsewhere, a
control character and a block string survive the trip. -/
theorem parse_and_print_inverse_shorthand :
    ∃ d,
      parse ("query ($a: [on!] = {b: -0.5} @c) @d(e: \"\\u0001\" f: [\"\"\"g\n  h\"\"\"])" ++
        "{i ... on on {... @j {k: l}}} {true}") = .ok d ∧
      d.print = "query($a:[on!]={b:-0.5}@c)@d(e:\"\\u0001\",f:[\"g\\nh\"])" ++
        "{i...on on{...@j{k:l}}}{true}" ∧
      d.WellFormed ∧ parse d.print = .ok d.plain := by
  refine exists_of_map (by decide +kernel) fun d hd _ => ?_
  have hw : d.WellFormed := (parse_and_print_inverse _ d).1 hd
  exact ⟨hw, (parse_and_print_inverse "" d).2 hw⟩

end Safelist.Document
