import Safelist.Proofs.Document.RoundTrip
import Safelist.Proofs.Signature.Dropping

/-!
# The passes behind engine signatures

An engine signature is the text of a document after four passes. Dropping what is
not used looks at names and at which fragments are used, hiding literals looks at
values, removing aliases looks at aliases, and canonical order looks at keys; none
of them changes what another one looks at. So any two of them can change places,
and a pass that has been made before makes no difference.
-/

namespace Safelist

open Signature

section Values

/-- A value whose literals are hidden, lists and input objects with all that is in them. -/
def Value.hidden (v : Value) : Value := (Edit.pointwise blankValue id).onValue v

@[simp] theorem Value.hidden_list (items : List Value) : (Value.list items).hidden = .list [] := by
  rw [Value.hidden, Edit.onValue]
  rfl

@[simp] theorem Value.hidden_object (members : List (String × Value)) :
    (Value.object members).hidden = .object [] := by
  rw [Value.hidden, Edit.onValue]
  rfl

@[simp] theorem Value.hidden_hidden (v : Value) : v.hidden.hidden = v.hidden := by
  cases v with
  | list items => rw [Value.hidden_list, Value.hidden_list]
  | object members => rw [Value.hidden_object, Value.hidden_object]
  | _ => rfl

/-- Literals can be hidden before a value is brought into order. -/
theorem Value.sorted_hidden (v : Value) : v.hidden.sorted = v.sorted.hidden := by
  cases v with
  | list items => simp
  | object members => simp
  | _ => rfl

/-- What redaction makes of a literal is hidden all the same. -/
theorem Value.hidden_redacted (v : Value) : (v.mapLeaves redactValue).hidden = v.hidden := by
  cases v with
  | list items => simp
  | object members => simp
  | _ => rfl

end Values

namespace Signature

/-- A pass that an engine signature is made with. -/
inductive Pass where
  /-- Drop what the operation of the name does not use. -/
  | dropUnused
  /-- Hide all literals. -/
  | hideLiterals
  /-- Remove all aliases. -/
  | removeAliases
  /-- Bring the document into canonical order. -/
  | sort

namespace Pass

/-- What a pass makes of a document, given the name of the operation. -/
def run (name : String) : Pass → Document → Document
  | dropUnused => Signature.dropUnused name
  | hideLiterals => Signature.hideLiterals
  | removeAliases => Signature.removeAliases
  | sort => Signature.sort

/-- The passes in the order in which an engine signature is made. -/
def all : List Pass := [dropUnused, hideLiterals, removeAliases, sort]

/-- Passes made one after another. -/
def runAll (name : String) (order : List Pass) (d : Document) : Document :=
  order.foldl (fun d pass => pass.run name d) d

end Pass

theorem hideLiterals_eq_map_hidden (d : Document) : hideLiterals d = d.map Value.hidden id :=
  hideLiterals_eq_map d

theorem dropUnused_hideLiterals (name : String) (d : Document) :
    dropUnused name (hideLiterals d) = hideLiterals (dropUnused name d) := by
  rw [hideLiterals_eq_map_hidden, hideLiterals_eq_map_hidden, dropUnused_map]

theorem dropUnused_removeAliases (name : String) (d : Document) :
    dropUnused name (removeAliases d) = removeAliases (dropUnused name d) := by
  rw [removeAliases_eq_map, removeAliases_eq_map, dropUnused_map]

theorem hideLiterals_removeAliases (d : Document) :
    hideLiterals (removeAliases d) = removeAliases (hideLiterals d) := by
  rw [hideLiterals_eq_map_hidden, hideLiterals_eq_map_hidden, removeAliases_eq_map,
    removeAliases_eq_map, Document.map_map, Document.map_map]
  rfl

theorem sort_hideLiterals (d : Document) : sort (hideLiterals d) = hideLiterals (sort d) := by
  rw [hideLiterals_eq_map_hidden, hideLiterals_eq_map_hidden, sort_map Value.sorted_hidden]

theorem sort_removeAliases (d : Document) : sort (removeAliases d) = removeAliases (sort d) := by
  rw [removeAliases_eq_map, removeAliases_eq_map, sort_map (g := id) fun _ => rfl]

/-- Any two passes can change places. -/
theorem Pass.run_comm (name : String) (p q : Pass) (d : Document) :
    p.run name (q.run name d) = q.run name (p.run name d) := by
  cases p <;> cases q <;>
    simp only [Pass.run, dropUnused_hideLiterals, dropUnused_removeAliases, dropUnused_sort,
      hideLiterals_removeAliases, sort_hideLiterals, sort_removeAliases]

/-- The order of passes makes no difference. -/
theorem Pass.runAll_eq_of_perm (name : String) {order order' : List Pass}
    (h : order.Perm order') : Pass.runAll name order = Pass.runAll name order' := by
  funext d
  exact h.foldl_eq' (fun p _ q _ d => Pass.run_comm name q p d) d

/-- Literals that are hidden stay so. -/
theorem hideLiterals_hideLiterals (d : Document) :
    hideLiterals (hideLiterals d) = hideLiterals d := by
  rw [hideLiterals_eq_map_hidden, hideLiterals_eq_map_hidden, Document.map_map]
  congr 1
  exact funext Value.hidden_hidden

/-- Literals are hidden in a redacted document as in the document itself. -/
theorem hideLiterals_redact (d : Document) : hideLiterals (redact d) = hideLiterals d := by
  rw [hideLiterals_eq_map_hidden, hideLiterals_eq_map_hidden, redact_eq_map, Document.map_map]
  congr 1
  exact funext Value.hidden_redacted

/-- Aliases that are removed stay so. -/
theorem removeAliases_removeAliases (d : Document) :
    removeAliases (removeAliases d) = removeAliases d := by
  rw [removeAliases_eq_map, removeAliases_eq_map, Document.map_map]
  rfl

theorem engineSignature_hideLiterals (name : String) (d : Document) :
    engineSignature name (hideLiterals d) = engineSignature name d := by
  rw [engineSignature, dropUnused_hideLiterals, hideLiterals_hideLiterals]
  rfl

theorem engineSignature_redact (name : String) (d : Document) :
    engineSignature name (redact d) = engineSignature name d := by
  rw [← engineSignature_hideLiterals, hideLiterals_redact, engineSignature_hideLiterals]

theorem engineSignature_removeAliases (name : String) (d : Document) :
    engineSignature name (removeAliases d) = engineSignature name d := by
  rw [engineSignature, dropUnused_removeAliases, hideLiterals_removeAliases,
    removeAliases_removeAliases]
  rfl

/-- Any two passes can change places, so an engine signature does not depend on their order; and it
is the same for a document that has been redacted, or through one of the passes that are made
without a name. -/
theorem engineSignature_passes_commute (name : String) :
    (∀ (p q : Pass) (d : Document), p.run name (q.run name d) = q.run name (p.run name d)) ∧
      (∀ order : List Pass, order.Perm Pass.all → ∀ d : Document,
        (Pass.runAll name order d).print = engineSignature name d) ∧
      ∀ d : Document,
        engineSignature name (redact d) = engineSignature name d ∧
        engineSignature name (hideLiterals d) = engineSignature name d ∧
        engineSignature name (removeAliases d) = engineSignature name d ∧
        engineSignature name (sort d) = engineSignature name d := by
  refine ⟨Pass.run_comm name, fun order h d => ?_, fun d => ⟨engineSignature_redact name d,
    engineSignature_hideLiterals name d, engineSignature_removeAliases name d,
    engineSignature_sort name d⟩⟩
  rw [Pass.runAll_eq_of_perm name h]
  rfl

/-- The passes backwards, on a document in which names of operations and of fragments repeat and
one fragment that is used is missing. -/
theorem engineSignature_passes_commute_backwards :
    ∃ d,
      Document.parse ("query q {...g ...f b: a(y: [1] x: 2.5)} query q {c ...h} query r {i}" ++
        "fragment h on t {j} fragment f on t {...f k} fragment f on u {...h}") = .ok d ∧
      engineSignature "q" d =
        "fragment f on t{k...f}fragment f on u{...h}query q{a(x:0,y:[])...f...g}query q{c...h}" ∧
      Pass.all.reverse.Perm Pass.all ∧
      (Pass.runAll "q" Pass.all.reverse d).print = engineSignature "q" d := by
  refine Document.exists_of_map ?_ fun d hd hs => ?_
  · unfold engineSignature canonicalText sort canonicalOrder
    simp only [sortByKey_eq_insertionSort]
    decide +kernel
  · have hp : Pass.all.reverse.Perm Pass.all := List.reverse_perm _
    exact ⟨hp, (engineSignature_passes_commute "q").2.1 _ hp d⟩

end Signature

end Safelist
