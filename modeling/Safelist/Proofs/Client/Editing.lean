import Safelist.Client.Bundle
import Safelist.Proofs.Document.Editing

/-!
# What clients do to documents misspells nothing

Stripping directives, asking for types and erasing fields leave documents such
that they can be written, if they could be before.
-/

namespace Safelist.Client

open Lexical

/-- Stripping directives misspells nothing. -/
theorem spells_stripping (names : List String) : (stripping names).Spells :=
  { Edit.spells_identity with directives := fun _ => List.filter_sublist.subset }

/-- Dropping selections misspells nothing. -/
theorem spells_dropping (unwanted : Selection → Bool) : (dropping unwanted).Spells :=
  { Edit.spells_identity with
    selection := fun hs ht => by
      simp only [dropping] at ht
      split at ht
      · cases ht
      · exact Option.some.inj ht ▸ hs }

/-- The field that asks for a type can be written. -/
theorem wellSpelled_withTypename {set : List Selection} (hs : ∀ s ∈ set, s.WellSpelled) :
    ∀ s ∈ withTypename set, s.WellSpelled := by
  unfold withTypename
  split
  · exact hs
  · refine List.forall_mem_cons.2 ⟨.leaf ⟨?_, ?_, ?_, ?_⟩, hs⟩
    · simp [Field.plain]
    · simp only [Field.plain]
      decide
    · simp [Field.plain]
    · simp [Field.plain]

/-- Asking for types misspells nothing. -/
theorem spells_askingTypes : askingTypes.Spells :=
  { Edit.spells_identity with
    fieldSelections := wellSpelled_withTypename
    fragmentSelections := wellSpelled_withTypename }

variable {d : Document}

theorem wellSpelled_dropFragments (names : List String) (hd : ∀ x ∈ d.definitions, x.WellSpelled) :
    ∀ x ∈ (dropFragments names d).definitions, x.WellSpelled :=
  (spells_dropping _).apply fun x hx => hd x (List.mem_filter.mp hx).1

theorem wellSpelled_dropEmptyFragments (hd : ∀ x ∈ d.definitions, x.WellSpelled) :
    ∀ x ∈ (dropEmptyFragments d).definitions, x.WellSpelled := by
  fun_induction dropEmptyFragments d with
  | case1 d h => exact hd
  | case2 d h ih => exact ih (wellSpelled_dropFragments _ hd)

theorem wellSpelled_eraseClientFields (names : List String)
    (hd : ∀ x ∈ d.definitions, x.WellSpelled) :
    ∀ x ∈ (eraseClientFields names d).definitions, x.WellSpelled := by
  unfold eraseClientFields
  split
  · exact hd
  · intro x hx
    exact wellSpelled_dropEmptyFragments ((spells_dropping _).apply hd) x (List.mem_filter.mp hx).1

/-- What the server is to see can be written. -/
theorem wellSpelled_serverSide (s : Settings) (hd : ∀ x ∈ d.definitions, x.WellSpelled) :
    ∀ x ∈ (serverSide s d).definitions, x.WellSpelled := by
  unfold serverSide
  refine (spells_stripping _).apply (wellSpelled_eraseClientFields _ ?_)
  split
  · exact spells_askingTypes.apply hd
  · exact hd

end Safelist.Client
