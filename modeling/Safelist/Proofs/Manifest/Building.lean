import Mathlib.Data.List.Induction
import Mathlib.Data.String.Basic
import Safelist.Proofs.Document.Reordering
import Safelist.Proofs.Lexical.StringSpelling
import Safelist.Proofs.Manifest.Extraction

/-!
# One record for each operation

A set to which entries have been offered one after another holds the first entry of each
name, in the order of the first offers; a name that is taken is refused, and the set stays
as it was. The manifest of such a set has one record for each entry, signed with the digest
of its text, unless an entry can not be registered. Then the first such entry is reported.
-/

namespace Safelist

namespace OperationSet

/-- Offer an entry to a set: what is answered, and the set afterwards. -/
def offer (set : OperationSet) (entry : String × Document) :
    Except Client.ProjectError Unit × OperationSet :=
  match Client.insertOperation set entry.1 entry.2 with
  | .ok set' => (.ok (), set')
  | .error e => (.error e, set)

/-- The empty set after some entries have been offered in turn. -/
def ofOffers (offers : List (String × Document)) : OperationSet :=
  offers.foldl (fun set entry => (set.offer entry).2) .empty

/-- Of some entries, the first of each name, in order. -/
structure FirstOfEach (offers entries : List (String × Document)) : Prop where
  /-- The names are those that were offered, in the order in which they were first offered. -/
  names : entries.map Prod.fst = (offers.map Prod.fst).eraseDups
  /-- An entry is the first that was offered under its name. -/
  first : ∀ e ∈ entries, offers.find? (fun o => o.1 = e.1) = some e

section Offers

variable {set : OperationSet} {entry : String × Document} {offers : List (String × Document)}

/-- A taken name is refused, and the set stays as it was. -/
theorem offer_of_mem (h : entry.1 ∈ set.names) :
    set.offer entry = (.error (.duplicateInSet entry.1), set) := by
  rw [offer, Client.insertOperation, insert?_eq_none_iff.mpr h]

/-- An entry of a new name is put at the end. -/
theorem exists_offer_of_not_mem (h : entry.1 ∉ set.names) :
    ∃ set', set.offer entry = (.ok (), set') ∧ set'.entries = set.entries ++ [entry] := by
  cases hset : set.insert? entry.1 entry.2 with
  | none => exact absurd (insert?_eq_none_iff.mp hset) h
  | some set' =>
    refine ⟨set', ?_, entries_insert? hset⟩
    rw [offer, Client.insertOperation, hset]

theorem ofOffers_concat : ofOffers (offers ++ [entry]) = ((ofOffers offers).offer entry).2 := by
  rw [ofOffers, List.foldl_concat]
  rfl

/-- One more name is new, or is left out. -/
theorem eraseDups_concat (names : List String) (name : String) :
    (names ++ [name]).eraseDups =
      if name ∈ names then names.eraseDups else names.eraseDups ++ [name] := by
  rw [List.eraseDups_append]
  split
  · rename_i h
    simp [List.removeAll, h]
  · rename_i h
    simp [List.removeAll, h, List.eraseDups_cons]

/-- What a set holds stays the first of each name when one more entry is offered. -/
theorem FirstOfEach.offer (h : FirstOfEach offers set.entries) :
    FirstOfEach (offers ++ [entry]) (set.offer entry).2.entries := by
  have hnames : set.names = (offers.map Prod.fst).eraseDups := h.names
  have hmem : entry.1 ∈ set.names ↔ entry.1 ∈ offers.map Prod.fst := by simp [hnames]
  have hold : ∀ e ∈ set.entries, (offers ++ [entry]).find? (fun o => o.1 = e.1) = some e := by
    intro e he
    rw [List.find?_append, h.first e he]
    rfl
  by_cases ht : entry.1 ∈ set.names
  · rw [offer_of_mem ht]
    refine ⟨?_, hold⟩
    rw [List.map_append, List.map_singleton, eraseDups_concat, if_pos (hmem.mp ht), h.names]
  · obtain ⟨set', hset', hentries⟩ := exists_offer_of_not_mem ht
    rw [hset', hentries]
    constructor
    · rw [List.map_append, List.map_append, List.map_singleton,
        eraseDups_concat, if_neg (mt hmem.mpr ht), h.names]
    · refine List.forall_mem_append.mpr ⟨hold, List.forall_mem_singleton.mpr ?_⟩
      have hnone : offers.find? (fun o => o.1 = entry.1) = none := by
        rw [List.find?_eq_none]
        exact fun o ho heq => ht (hmem.mpr (of_decide_eq_true heq ▸ List.mem_map_of_mem ho))
      rw [List.find?_append, hnone]
      simp

/-- Offering entries to the empty set leaves the first of each name in it. -/
theorem firstOfEach_ofOffers (offers : List (String × Document)) :
    FirstOfEach offers (ofOffers offers).entries := by
  induction offers using List.reverseRecOn with
  | nil => exact ⟨rfl, List.forall_mem_nil _⟩
  | append_singleton offers entry ih =>
    rw [ofOffers_concat]
    exact ih.offer

end Offers

end OperationSet

namespace Signature.Digest

/-- The digits that digests are written in. -/
def digits : List Char :=
  ['0', '1', '2', '3', '4', '5', '6', '7', '8', '9', 'a', 'b', 'c', 'd', 'e', 'f']

theorem digit_mem_digits (n : Nat) : Text.Hex.digit n ∈ digits := by
  have hlt : n % 16 < 16 := Nat.mod_lt _ (by decide)
  have hall : ∀ m < 16, Nat.digitChar m ∈ digits := by decide
  exact hall _ hlt

/-- The digits are the characters that the form of a digest allows. -/
theorem mem_digits_iff (c : Char) : c ∈ digits ↔ (c.isDigit || ('a' ≤ c && c ≤ 'f')) = true := by
  constructor
  · have hall : digits.all (fun d => d.isDigit || ('a' ≤ d && d ≤ 'f')) = true := by decide
    exact List.all_eq_true.mp hall c
  · intro h
    have hc : c.toNat < 128 := by
      simp only [Char.isDigit, Char.le_def, Bool.or_eq_true, Bool.and_eq_true, decide_eq_true_iff,
        UInt32.le_iff_toNat_le] at h
      simp only [Char.toNat]
      have h9 : '9'.val.toNat = 57 := rfl
      have hf : 'f'.val.toNat = 102 := rfl
      omega
    exact Text.Hex.forall_char_lt (P := fun c => (c.isDigit || ('a' ≤ c && c ≤ 'f')) = true →
      c ∈ digits) (by decide) c hc h

/-- Digits take one byte each. -/
theorem utf8Len_of_digits {cs : List Char} (h : ∀ c ∈ cs, c ∈ digits) :
    String.utf8Len cs = cs.length := by
  induction cs with
  | nil => rfl
  | cons c cs ih =>
    have hall : digits.all (fun d => d.utf8Size = 1) = true := by decide
    have hone : c.utf8Size = 1 :=
      of_decide_eq_true (List.all_eq_true.mp hall c (h c List.mem_cons_self))
    rw [String.utf8Len_cons, ih fun d hd => h d (List.mem_cons_of_mem _ hd), hone,
      List.length_cons]

/-- The form of a digest is sixty-four digits. -/
theorem isDigest_iff (text : String) :
    isDigest text ↔ text.toList.length = 64 ∧ ∀ c ∈ text.toList, c ∈ digits := by
  have hall : (text.toList.all fun c => c.isDigit || ('a' ≤ c && c ≤ 'f')) = true ↔
      ∀ c ∈ text.toList, c ∈ digits := by simp only [List.all_eq_true, mem_digits_iff]
  rw [isDigest, Bool.and_eq_true, decide_eq_true_iff, hall, length]
  refine and_congr_left fun h => ?_
  rw [← utf8Len_of_digits h, ← String.utf8ByteSize_ofList, String.ofList_toList]

/-- The digest of any text has the form of a digest. -/
theorem isDigest_ofText (text : String) : isDigest (ofText text) := by
  have hword : ∀ w : UInt32, ∀ c ∈ Text.Hex.word w, c ∈ digits := by
    intro w
    simp [Text.Hex.word, Text.Hex.four, digit_mem_digits]
  rw [isDigest_iff, ofText, String.toList_ofList, ofBytes]
  refine ⟨length_hex _, fun c hc => ?_⟩
  obtain ⟨w, -, hc⟩ := List.mem_flatMap.mp hc
  exact hword w c hc

end Signature.Digest

namespace Manifest

open Signature

section Records

variable (recipe : Recipe) {entries : List (String × Document)} {e : Failure}

/-- An entry has a record when its document passes the check. -/
theorem Recipe.exists_record_iff {name : String} {d : Document} :
    (∃ r, recipe.record name d = .ok r) ↔ recipe.check d = .ok () := by
  rw [record]
  cases recipe.check d <;> simp

theorem Recipe.record_eq_error_iff {name : String} {d : Document} :
    recipe.record name d = .error e ↔
      ∃ cause, recipe.check d = .error cause ∧ e = .invalidOperation name cause := by
  rw [record]
  cases recipe.check d <;> simp [eq_comm]

/-- Records fail at the first entry whose document does not pass the check. -/
theorem Recipe.exists_of_outcome_records (h : (recipe.records entries).outcome = .error e) :
    ∃ before name d after cause, entries = before ++ (name, d) :: after ∧
      (∀ b ∈ before, recipe.check b.2 = .ok ()) ∧ recipe.check d = .error cause ∧
      e = .invalidOperation name cause := by
  induction entries with
  | nil => cases h
  | cons entry entries ih =>
    rw [outcome_records_cons, bind_eq_error_iff] at h
    rcases h with hr | ⟨r, hr, h⟩
    · obtain ⟨cause, hcheck, he⟩ := recipe.record_eq_error_iff.mp hr
      exact ⟨[], entry.1, entry.2, entries, cause, rfl, List.forall_mem_nil _, hcheck, he⟩
    · have hrest : (recipe.records entries).outcome = .error e := by
        rcases bind_eq_error_iff.mp h with hrest | ⟨rs, -, hpure⟩
        · exact hrest
        · cases hpure
      have hentry : recipe.check entry.2 = .ok () := recipe.exists_record_iff.mp ⟨r, hr⟩
      obtain ⟨before, name, d, after, cause, hsplit, hbefore, hcheck, he⟩ := ih hrest
      exact ⟨entry :: before, name, d, after, cause, congrArg (entry :: ·) hsplit,
        List.forall_mem_cons.mpr ⟨hentry, hbefore⟩, hcheck, he⟩

end Records

/-- The outcome of building a set of operations has a record for each of them. -/
structure RecordsEach (set : OperationSet) (outcome : Except Failure Manifest) : Prop where
  /-- A manifest comes out when every document can be registered. -/
  succeeds : (∃ m, outcome = .ok m) ↔ ∀ e ∈ set.entries, e.2.check = .ok ()
  /-- Its version is the first. -/
  version : ∀ m, outcome = .ok m → m.version = 1
  /-- Its records are those of the entries, in order. -/
  records : ∀ m, outcome = .ok m →
    List.Forall₂ (fun e r => Recipe.standard.record e.1 e.2 = .ok r) set.entries m.records
  /-- Each is signed with the digest of its text, in sixty-four digits. -/
  signed : ∀ m, outcome = .ok m → ∀ r ∈ m.records,
    r.signature = Digest.ofText r.document ∧ Digest.isDigest r.signature ∧
      r.signature.toList.length = 64 ∧ ∀ c ∈ r.signature.toList, c ∈ Digest.digits
  /-- Otherwise the first entry that can not be registered is named. -/
  refused : ∀ e, outcome = .error e → e.code = "OPM_EXTRACT_INPUT" ∧
    ∃ before name d after cause, set.entries = before ++ (name, d) :: after ∧
      (∀ b ∈ before, b.2.check = .ok ()) ∧ d.check = .error cause ∧
      e = .invalidOperation name cause

/-- A record is signed with the digest of its text. -/
theorem signed_record {name : String} {d : Document} {r : Record}
    (h : Recipe.standard.record name d = .ok r) : r.signature = Digest.ofText r.document := by
  rw [Recipe.record] at h
  cases hcheck : Recipe.standard.check d with
  | error cause =>
    rw [hcheck] at h
    cases h
  | ok u =>
    rw [hcheck] at h
    cases h
    rfl

/-- The records of a set are made, or the first entry that has none is named. -/
theorem recordsEach_manifest (set : OperationSet) :
    RecordsEach set (Recipe.standard.manifest set).outcome := by
  rw [Recipe.manifest, Log.Account.outcome_bind]
  cases h : (Recipe.standard.records set.entries).outcome with
  | ok rs =>
    have hall := Recipe.standard.outcome_records_eq_ok_iff.mp h
    refine ⟨⟨fun _ e he => ?_, fun _ => ⟨_, rfl⟩⟩, ?_, ?_, ?_, fun e he => by cases he⟩
    · obtain ⟨r, -, hr⟩ := exists_mem_of_forall₂ hall.flip e he
      exact Recipe.standard.exists_record_iff.mp ⟨r, hr⟩
    · rintro m ⟨⟩
      rfl
    · rintro m ⟨⟩
      exact hall
    · rintro m ⟨⟩ r hr
      obtain ⟨e, -, he⟩ := exists_mem_of_forall₂ hall r hr
      have hsigned := signed_record he
      have hdigest : Digest.isDigest r.signature := hsigned ▸ Digest.isDigest_ofText r.document
      exact ⟨hsigned, hdigest, (Digest.isDigest_iff _).mp hdigest⟩
  | error e =>
    obtain ⟨before, name, d, after, cause, hsplit, hbefore, hcheck, rfl⟩ :=
      Recipe.standard.exists_of_outcome_records h
    refine ⟨⟨?_, fun hall => ?_⟩, ?_, ?_, ?_, ?_⟩
    · rintro ⟨m, ⟨⟩⟩
    · have hd : d.check = .ok () := hall (name, d) (by simp [hsplit])
      have hcheck : d.check = .error cause := hcheck
      rw [hd] at hcheck
      cases hcheck
    · rintro m ⟨⟩
    · rintro m ⟨⟩
    · rintro m ⟨⟩
    · rintro e ⟨⟩
      exact ⟨rfl, before, name, d, after, cause, hsplit, hbefore, hcheck, rfl⟩

/-- Whatever is offered to the empty set, it holds the first entry of each name, a taken name is
refused, and building the set has a record for each entry or names the first that has none. -/
theorem build_records_each (offers : List (String × Document)) :
    let set := OperationSet.ofOffers offers
    OperationSet.FirstOfEach offers set.entries ∧
      (∀ entry : String × Document,
        (∃ o ∈ offers, o.1 = entry.1) ∧
            set.offer entry = (.error (.duplicateInSet entry.1), set) ∨
          (∀ o ∈ offers, o.1 ≠ entry.1) ∧ ∃ set', set.offer entry = (.ok (), set') ∧
            set'.entries = set.entries ++ [entry]) ∧
      ∀ (timings : Bool) (w : World),
        RecordsEach set
          ((build .standard timings set : ExceptT Failure Simulated Manifest).run w).1 := by
  intro set
  have hfirst := OperationSet.firstOfEach_ofOffers offers
  refine ⟨hfirst, fun entry => ?_, fun timings w => ?_⟩
  · have hmem : entry.1 ∈ set.names ↔ ∃ o ∈ offers, o.1 = entry.1 := by
      have hnames : set.names = (offers.map Prod.fst).eraseDups := hfirst.names
      rw [hnames, List.mem_eraseDups, List.mem_map]
    by_cases ht : entry.1 ∈ set.names
    · exact .inl ⟨hmem.mp ht, OperationSet.offer_of_mem ht⟩
    · refine .inr ⟨fun o ho heq => ht (hmem.mpr ⟨o, ho, heq⟩), ?_⟩
      exact OperationSet.exists_offer_of_not_mem ht
  · rw [(yields_build .standard timings set).result w]
    exact recordsEach_manifest set

end Manifest

end Safelist
