import Mathlib.Data.List.Permutation
import Safelist.Log.Entry
import Safelist.Proofs.Json.Layout
import Safelist.Proofs.Json.Unambiguous
import Safelist.Proofs.Signature.Order

/-!
# A log line says one thing

The line of an entry ends with its only line feed. What stands before it is a text of
one JSON object and of no other value, whatever the event, the names and the values
hold: nothing in them ends a text or the line early.
-/

namespace Safelist.Log.Entry

open Json Lexical

/-- Named values in the order of their names, those of equal names in the order in which they were
given. -/
structure ByName (given sorted : List (String × String)) : Prop where
  /-- They are the ones that were given. -/
  perm : sorted.Perm given
  /-- Names are in order. -/
  ordered : sorted.Pairwise fun f g => f.1 ≤ g.1
  /-- The values of a name are in the order in which they were given. -/
  stable : ∀ name, (sorted.filter fun f => f.1 = name) = given.filter fun f => f.1 = name

section Order

open Signature

/-- The order of names is that of keys that are names. -/
theorem fieldsByName_eq (e : Entry) :
    e.fieldsByName = sortByKey (fun f => Key.ofName f.1) e.fields := by
  unfold fieldsByName sortByKey
  congr 1

theorem byName_fieldsByName (e : Entry) : ByName e.fields e.fieldsByName := by
  rw [fieldsByName_eq]
  refine ⟨sortByKey_perm _ _, ?_, fun name => ?_⟩
  · refine (pairwise_sortByKey _ e.fields).imp fun {f g} h => ?_
    obtain hrank | ⟨-, hname⟩ := Key.le_iff.mp h
    · exact absurd hrank (Nat.lt_irrefl 0)
    · exact hname
  · have hstable := stablePerm_sortByKey (fun f : String × String => Key.ofName f.1) e.fields
      (Key.ofName name)
    simpa [entriesOf, Key.ofName] using hstable

end Order

/-- Named values of different names have one order. -/
theorem ByName.eq_of_perm {given given' sorted sorted' : List (String × String)}
    (h : ByName given sorted) (h' : ByName given' sorted') (hperm : given'.Perm given)
    (hnames : (given.map Prod.fst).Nodup) : sorted' = sorted := by
  have hsame : sorted'.Perm sorted := (h'.perm.trans hperm).trans h.perm.symm
  refine List.Perm.eq_of_pairwise (fun f g hf hg hfg hgf => ?_) h'.ordered h.ordered hsame
  have hf : f ∈ given := h.perm.mem_iff.mp (hsame.mem_iff.mp hf)
  have hg : g ∈ given := h.perm.mem_iff.mp hg
  exact List.inj_on_of_nodup_map hnames hf hg (String.le_antisymm hfg hgf)

section Line

/-- A name and a value as they are written. -/
def written (f : String × String) : List Char := member f.1.toList f.2.toList

/-- Names and their values between brackets. -/
def writtenObject (first : String × String) (others : List (String × String)) : List Char :=
  '\x7b' :: (written first ++ (commas [] (others.map written) ++ ['\x7d']))

/-- The line of an entry is an object with the event first, and a line feed. -/
theorem toList_line (time : String) (e : Entry) :
    (e.line time).toList = writtenObject ("event", e.event)
      (("severity", e.severity.word) :: ("ts", time) :: e.fieldsByName) ++ ['\n'] := by
  rw [line, String.toList_ofList]
  simp [lineChars, writtenObject, written, commas, List.flatMap_map]

theorem keyed_written (f : String × String) : Keyed f.1 (Json.text f.2).IsText (written f) :=
  .intro (quotes_of_faithful Quoted.faithful_log f.1) blank_nil blank_nil
    (quotes_of_faithful Quoted.faithful_log f.2)

/-- Written names and values are a text of the object with these members. -/
theorem isText_writtenObject (first : String × String) (others : List (String × String)) :
    (Json.object ((first :: others).map fun f => (f.1, .text f.2))).IsText
      (writtenObject first others) := by
  have hways : List.Forall₂ (fun way cs => way cs)
      (others.map fun f => Keyed f.1 (Json.text f.2).IsText) (others.map written) := by
    rw [List.forall₂_map_left_iff, List.forall₂_map_right_iff]
    exact List.forall₂_same.mpr fun f _ => keyed_written f
  have hmore : Followed '\x7d' _ _ := followed_commas blank_nil blank_nil hways
  have hlisted := Listed.some blank_nil (keyed_written first) hmore
  refine ⟨_, rfl, ?_⟩
  rw [memberTexts_eq_map, List.map_map]
  exact hlisted

/-- No line ends inside a name or a value. -/
theorem feed_not_mem_written (f : String × String) : '\n' ∉ written f := by
  have hquote : ∀ t : String, '\n' ∉ Text.Escape.log.quote t.toList := by
    intro t
    have hbody : '\n' ∉ Text.Escape.log.body t.toList := by
      intro h
      cases Quoted.faithful_log.not_isLowControl t.toList _ h
    simp [Text.Escape.quote, hbody]
  simp [written, member, hquote]

theorem feed_not_mem_writtenObject (first : String × String) (others : List (String × String)) :
    '\n' ∉ writtenObject first others := by
  have hcommas : '\n' ∉ commas [] (others.map written) := by
    rw [commas, List.mem_flatMap]
    rintro ⟨_, hmem, h⟩
    obtain ⟨f, -, rfl⟩ := List.mem_map.mp hmem
    simp [feed_not_mem_written] at h
  simp [writtenObject, feed_not_mem_written, hcommas]

/-- The line of an entry ends with its only line feed, and what stands before it is a text of one
value, the object of the event, the severity, the time and the named values in the order of their
names. When names are different, it does not matter in which order the values are given. -/
theorem line_says_one_thing (time : String) (e : Entry) :
    (∃ body sorted, (e.line time).toList = body ++ ['\n'] ∧ '\n' ∉ body ∧
      ByName e.fields sorted ∧
      ∀ j : Json, j.IsText body ↔ j = .object (("event", .text e.event) ::
        ("severity", .text e.severity.word) :: ("ts", .text time) ::
          sorted.map fun f => (f.1, .text f.2))) ∧
    ∀ given, given.Perm e.fields → (e.fields.map Prod.fst).Nodup →
      Entry.line time { e with fields := given } = e.line time := by
  constructor
  · refine ⟨_, e.fieldsByName, toList_line time e, feed_not_mem_writtenObject _ _,
      byName_fieldsByName e, fun j => ?_⟩
    have htext := isText_writtenObject ("event", e.event)
      (("severity", e.severity.word) :: ("ts", time) :: e.fieldsByName)
    constructor
    · intro h
      exact h.unique htext
    · rintro rfl
      exact htext
  · intro given hperm hnames
    have hsame : fieldsByName { e with fields := given } = e.fieldsByName :=
      (byName_fieldsByName e).eq_of_perm (byName_fieldsByName _) hperm hnames
    simp only [line, lineChars, hsame]

/-- An entry with names of its own members and with values that try to end its line. -/
def forged : Entry :=
  ⟨.warn, "A\"B", [("ts", "\x7d\n\x7b"), ("event", "\x85\\")]⟩

theorem line_says_one_thing_forged :
    let given := [("event", "\x85\\"), ("ts", "\x7d\n\x7b")]
    given.Perm forged.fields ∧ (forged.fields.map Prod.fst).Nodup ∧
      Entry.line "now" { forged with fields := given } = forged.line "now" ∧
      forged.line "now" = "\x7b\"event\":\"A\\\"B\",\"severity\":\"WARN\",\"ts\":\"now\"," ++
        "\"event\":\"\\u0085\\\\\",\"ts\":\"\x7d\\n\x7b\"\x7d\n" := by
  intro given
  have hperm : given.Perm forged.fields := List.Perm.swap _ _ []
  have hnames : (forged.fields.map Prod.fst).Nodup := by decide
  exact ⟨hperm, hnames, (line_says_one_thing "now" forged).2 given hperm hnames, by cbv⟩

end Line

end Safelist.Log.Entry
