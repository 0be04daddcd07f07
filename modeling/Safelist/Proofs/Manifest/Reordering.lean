import Safelist.Proofs.Document.Equality
import Safelist.Proofs.Document.Reordering
import Safelist.Proofs.Manifest.FixedPoint
import Safelist.Proofs.Signature.Rearrangement

/-!
# Records of reordered documents

Canonical order is stable: selections with one key, such as two aliases of one
field, stay in the order they had. So a document with its selections in another
order has the same record where the selections of each key stay in order, and in
general exactly where canonical order makes up for the difference.
-/

namespace Safelist

open Signature

/-- Entries are related one by one in another way, if this is so for each of them. -/
theorem forall₂_imp_of_mem {α β : Type} {R S : α → β → Prop} {xs : List α} {ys : List β}
    (hs : ∀ x ∈ xs, ∀ y, R x y → S x y) (h : List.Forall₂ R xs ys) : List.Forall₂ S xs ys := by
  have hm := (List.forall₂_and_left xs ys).mpr ⟨fun x hx => hx, h⟩
  exact hm.imp fun x y hxy => hs x hxy.1 y hxy.2

/-- Reordering is a rearrangement if the selections of each key stay in order. -/
theorem Selection.Reordered.rearranged {s t : Selection}
    (h : s.Reordered (StablePerm selectionKey) t) : s.Rearranged t := by
  induction s generalizing t with
  | leaf f =>
    cases h
    exact .leaf (Field.rearranged_iff.mpr rfl)
  | nested f set ih =>
    cases h with
    | nested _ each hp =>
      exact .nested (Field.rearranged_iff.mpr rfl)
        (forall₂_imp_of_mem (fun s hs t => ih s hs) each) hp
  | spread use =>
    cases h
    exact .spread (Spread.rearranged_iff.mpr rfl)
  | inline head set ih =>
    cases h with
    | inline _ each hp =>
      exact .inline (InlineHead.rearranged_iff.mpr rfl)
        (forall₂_imp_of_mem (fun s hs t => ih s hs) each) hp

theorem SetReordered.sortedList_eq {set set' : List Selection}
    (h : SetReordered (StablePerm selectionKey) set set') :
    Selection.sortedList set = Selection.sortedList set' := by
  obtain ⟨mid, each, hp⟩ := h
  exact Selection.listRearranged_iff.mp
    ⟨mid, each.imp fun _ _ => Selection.Reordered.rearranged, hp⟩

theorem Definition.Reordered.rearranged {x y : Definition}
    (h : x.Reordered (StablePerm selectionKey) y) : x.Rearranged y := by
  cases x with
  | operation op =>
    cases y with
    | operation op' =>
      refine Operation.rearranged_iff.mpr ?_
      rw [h.eq, Operation.sorted, Operation.sorted, h.selections.sortedList_eq]
    | fragment f' => exact h.elim
  | fragment f =>
    cases y with
    | operation op' => exact h.elim
    | fragment f' =>
      refine Fragment.rearranged_iff.mpr ?_
      rw [h.eq, Fragment.sorted, Fragment.sorted, h.selections.sortedList_eq]

theorem Document.Reordered.rearranged {a b : Document}
    (h : a.Reordered (StablePerm selectionKey) b) : a.Rearranged b :=
  ⟨b.definitions, h.imp fun _ _ => Definition.Reordered.rearranged, .refl _ _⟩

namespace Manifest.Recipe

variable {name : String} {a b : Document} {r r' : Record}

/-- A document that passes the check has a record. -/
theorem exists_record_of_check (name : String) {d : Document} (h : d.check = .ok ()) :
    ∃ r, standard.record name d = .ok r ∧ r.document = (Signature.sort d.shape).print ∧
      r.signature = Digest.ofText r.document :=
  ⟨_, record_eq_ok_iff.mpr ⟨Document.check_eq_ok_iff.mp h, rfl⟩, rfl, rfl⟩

/-- Documents that can be written have one text when they are rearrangements of each other, the
literals forgotten. -/
theorem document_eq_iff (ha : ∀ x ∈ a.definitions, x.WellSpelled)
    (hb : ∀ x ∈ b.definitions, x.WellSpelled) (hr : standard.record name a = .ok r)
    (hr' : standard.record name b = .ok r') :
    r.document = r'.document ↔ a.shape.Rearranged b.shape := by
  obtain ⟨⟨op, hop⟩, rfl⟩ := record_eq_ok_iff.mp hr
  obtain ⟨⟨op', hop'⟩, rfl⟩ := record_eq_ok_iff.mp hr'
  rw [Document.rearranged_iff]
  refine ⟨fun h => ?_, congrArg Document.print⟩
  have hpa := (hop.wellFormed ha).parse_print_sort_shape
  have hpb := (hop'.wellFormed hb).parse_print_sort_shape
  have htext : (Signature.sort a.shape).print = (Signature.sort b.shape).print := h
  rw [htext, hpb] at hpa
  exact (Except.ok.inj hpa).symm

/-- Records of one text are the same, if their documents can be written. -/
theorem record_eq_of_document_eq (ha : ∀ x ∈ a.definitions, x.WellSpelled)
    (hb : ∀ x ∈ b.definitions, x.WellSpelled) (hr : standard.record name a = .ok r)
    (hr' : standard.record name b = .ok r') (h : r.document = r'.document) : r = r' := by
  obtain ⟨d, hd, hdr⟩ := exists_parse_of_record ha hr
  obtain ⟨d', hd', hdr'⟩ := exists_parse_of_record hb hr'
  rw [h, hd'] at hd
  obtain rfl := Except.ok.inj hd
  rw [hdr] at hdr'
  exact Except.ok.inj hdr'

end Manifest.Recipe

namespace Manifest

/-- A document that is read and can be registered has a record in any order of its selections. The
text of the record is the same exactly when the documents are rearrangements of each other, the
literals forgotten, and then the whole record is. It is so when selections of one key stay in
order. -/
theorem record_reordered {source name : String} {a b : Document}
    (ha : Document.parse source = .ok a) (hcheck : a.check = .ok ())
    (hab : a.Reordered List.Perm b) :
    ∃ r r', Recipe.standard.record name a = .ok r ∧ Recipe.standard.record name b = .ok r' ∧
      (r.document = r'.document ↔ a.shape.Rearranged b.shape) ∧
      (r.document = r'.document → r = r') ∧
      (a.Reordered (StablePerm selectionKey) b → r = r') := by
  obtain ⟨op, hop⟩ := Document.check_eq_ok_iff.mp hcheck
  have hsa := (Document.wellFormed_of_parse ha).wellSpelled
  have hsb := hab.wellSpelled hsa
  obtain ⟨r, hr, -⟩ := Recipe.exists_record_of_check name hcheck
  obtain ⟨r', hr', -⟩ :=
    Recipe.exists_record_of_check name (Document.check_eq_ok_iff.mpr (hab.registers hop))
  have hdoc := Recipe.document_eq_iff hsa hsb hr hr'
  have heq := Recipe.record_eq_of_document_eq hsa hsb hr hr'
  refine ⟨_, _, hr, hr', hdoc, heq, fun hstable => heq (hdoc.mpr ?_)⟩
  rw [Document.rearranged_iff, sort_shape, sort_shape,
    Document.rearranged_iff.mp hstable.rearranged]

/-- Selections of an operation, of a field and of a fragment change places. -/
theorem record_reordered_deep :
    ∃ a b, Document.parse "query q {d {x: f c} ...g} fragment g on t {b a}" = .ok a ∧
      Document.parse "query q {...g d {c x: f}} fragment g on t {a b}" = .ok b ∧
      a.check = .ok () ∧ a.Reordered List.Perm b ∧ a.Reordered (StablePerm selectionKey) b ∧
      ∃ r r', Recipe.standard.record "q" a = .ok r ∧ Recipe.standard.record "q" b = .ok r' ∧
        a.shape.Rearranged b.shape ∧ r = r' := by
  obtain ⟨a, ha, hea⟩ : ∃ a,
      Document.parse "query q {d {x: f c} ...g} fragment g on t {b a}" = .ok a ∧
      a = ⟨[.operation ⟨.query, some "q", [], [],
          [.nested (.plain "d") [.leaf ⟨some "x", "f", [], []⟩, .leaf (.plain "c")],
            .spread ⟨"g", []⟩]⟩,
        .fragment ⟨"g", "t", [], [.leaf (.plain "b"), .leaf (.plain "a")]⟩]⟩ :=
    ⟨_, by decide +kernel, rfl⟩
  obtain ⟨b, hb, heb⟩ : ∃ b,
      Document.parse "query q {...g d {c x: f}} fragment g on t {a b}" = .ok b ∧
      b = ⟨[.operation ⟨.query, some "q", [], [],
          [.spread ⟨"g", []⟩,
            .nested (.plain "d") [.leaf (.plain "c"), .leaf ⟨some "x", "f", [], []⟩]]⟩,
        .fragment ⟨"g", "t", [], [.leaf (.plain "a"), .leaf (.plain "b")]⟩]⟩ :=
    ⟨_, by decide +kernel, rfl⟩
  have hcheck : a.check = .ok () := by
    rw [hea]
    decide +kernel
  -- In each of the three sets two selections of different keys change places.
  have hab : ∀ order : List Selection → List Selection → Prop,
      (∀ s t, selectionKey s ≠ selectionKey t → order [s, t] [t, s]) → a.Reordered order b := by
    intro order h
    have hd : (Selection.nested (.plain "d") [.leaf ⟨some "x", "f", [], []⟩,
        .leaf (.plain "c")]).Reordered order
        (.nested (.plain "d") [.leaf (.plain "c"), .leaf ⟨some "x", "f", [], []⟩]) :=
      .nested _ (.cons (.leaf _) (.cons (.leaf _) .nil)) (h _ _ (by decide))
    rw [hea, heb]
    exact .cons ⟨rfl, _, .cons hd (.cons (.spread _) .nil), h _ _ (by decide)⟩
      (.cons ⟨rfl, _, .cons (.leaf _) (.cons (.leaf _) .nil), h _ _ (by decide)⟩ .nil)
  have hperm : a.Reordered List.Perm b := hab _ fun s t _ => .swap t s []
  have hstable : a.Reordered (StablePerm selectionKey) b :=
    hab _ fun s t h => .middle (List.forall_mem_singleton.mpr h) []
  obtain ⟨r, r', hr, hr', hdoc, -, heq⟩ := record_reordered ha hcheck hperm
  exact ⟨a, b, ha, hb, hcheck, hperm, hstable, r, r', hr, hr',
    hdoc.mp (congrArg Record.document (heq hstable)), heq hstable⟩

/-- Two aliases of one field change places. -/
theorem record_depends_on_order_of_aliases :
    ∃ a b, Document.parse "query Q {a: f b: f}" = .ok a ∧
      Document.parse "query Q {b: f a: f}" = .ok b ∧
      a.check = .ok () ∧ a.Reordered List.Perm b ∧
      ∃ r r', Recipe.standard.record "Q" a = .ok r ∧ Recipe.standard.record "Q" b = .ok r' ∧
        r.document = "query Q{a:f b:f}" ∧ r'.document = "query Q{b:f a:f}" ∧
        r.signature ≠ r'.signature := by
  obtain ⟨a, ha, hea⟩ : ∃ a, Document.parse "query Q {a: f b: f}" = .ok a ∧
      a = ⟨[.operation ⟨.query, some "Q", [], [],
        [.leaf ⟨some "a", "f", [], []⟩, .leaf ⟨some "b", "f", [], []⟩]⟩]⟩ :=
    ⟨_, by decide +kernel, rfl⟩
  obtain ⟨b, hb, heb⟩ : ∃ b, Document.parse "query Q {b: f a: f}" = .ok b ∧
      b = ⟨[.operation ⟨.query, some "Q", [], [],
        [.leaf ⟨some "b", "f", [], []⟩, .leaf ⟨some "a", "f", [], []⟩]⟩]⟩ :=
    ⟨_, by decide +kernel, rfl⟩
  have hca : a.check = .ok () := by
    rw [hea]
    decide +kernel
  have hcb : b.check = .ok () := by
    rw [heb]
    decide +kernel
  have hab : a.Reordered List.Perm b := by
    rw [hea, heb]
    exact .cons ⟨rfl, _, .cons (.leaf _) (.cons (.leaf _) .nil), .swap _ _ _⟩ .nil
  obtain ⟨r, hr, htext, hdigest⟩ := Recipe.exists_record_of_check "Q" hca
  obtain ⟨r', hr', htext', hdigest'⟩ := Recipe.exists_record_of_check "Q" hcb
  have hdoc : r.document = "query Q{a:f b:f}" := by
    rw [htext, hea]
    unfold sort canonicalOrder
    simp only [sortByKey_eq_insertionSort]
    decide +kernel
  have hdoc' : r'.document = "query Q{b:f a:f}" := by
    rw [htext', heb]
    unfold sort canonicalOrder
    simp only [sortByKey_eq_insertionSort]
    decide +kernel
  refine ⟨a, b, ha, hb, hca, hab, r, r', hr, hr', hdoc, hdoc', ?_⟩
  rw [hdigest, hdigest', hdoc, hdoc']
  decide +kernel

end Manifest

end Safelist
