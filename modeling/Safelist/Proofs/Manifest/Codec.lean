import Safelist.Manifest.Extraction
import Safelist.Proofs.Files.Entry
import Safelist.Proofs.Json.Layout
import Safelist.Proofs.Json.Reading
import Safelist.Proofs.Machine.Work
import Safelist.Proofs.Outcome

/-!
# Manifests are read back

Whatever a manifest holds, it is read from every text of its object, and what is
written is one of these texts. So reading what was written gives the manifest back.
-/

namespace Safelist

open Json Json.Scan Lexical

namespace Record

/-- The older identifier of a record is read. -/
theorem reads_metadata (t : String) :
    Reads metadata (Json.object [("engineSignature", .text t)]).IsText t := by
  have hobject : Reads (Scan.record
      [.of "engineSignature" id (fun _ text => some text) Scan.string] none)
      (Json.object [("engineSignature", .text t)]).IsText (some t) :=
    Fills.reads_record <| .more rfl rfl ((reads_string t).map _) .done
  exact hobject.finish fun rest => takes_pure t rest

/-- A record is read. -/
theorem reads_scan (r : Record) : Reads scan r.toJson.IsText r := by
  have hobject : Reads (Scan.record members {}) r.toJson.IsText
      ⟨some r.signature, some r.document, some r.engineSignature⟩ :=
    Fills.reads_record <|
      .more rfl rfl ((reads_string r.signature).map _) <|
        .more rfl rfl ((reads_string r.document).map _) <|
          .more rfl rfl ((reads_metadata r.engineSignature).map _) .done
  exact hobject.finish fun rest => takes_pure r rest

end Record

namespace Manifest

theorem reads_scan (m : Manifest) : Reads scan m.toJson.IsText m := by
  have hrecords : Reads (Scan.list Record.scan)
      (Json.list (m.records.map Record.toJson)).IsText m.records := by
    have hlist := reads_list (g := id) m.records fun r _ => Record.reads_scan r
    rwa [List.map_id] at hlist
  have hobject : Reads (Scan.record members {}) m.toJson.IsText
      ⟨some m.version, some m.records⟩ :=
    Fills.reads_record <|
      .more rfl rfl ((reads_word m.version).map _) <| .more rfl rfl (hrecords.map _) .done
  exact hobject.finish fun rest => takes_pure m rest

/-- What was written is read back. -/
theorem read_write_eq (m : Manifest) : read m.write = .ok m := by
  have hwhole := (reads_scan m).whole blank_nil (isText_write m.toJson) blank_nil
  rwa [List.nil_append, List.append_nil, String.ofList_toList] at hwhole

/-- A manifest is written as an object with its fields under their keys, and it is read from every
text of this object, what was written among them. -/
theorem codec_lossless (m : Manifest) :
    (Json.object [("version", .number m.version.toNat),
      ("operations", .list (m.records.map fun r => .object [("signature", .text r.signature),
        ("document", .text r.document),
        ("metadata", .object [("engineSignature", .text r.engineSignature)])]))]).IsText
          m.write.toList ∧
      (∀ ws cs ws', Blank ws → m.toJson.IsText cs → Blank ws' →
        read (String.ofList (ws ++ (cs ++ ws'))) = .ok m) ∧
      read m.write = .ok m := by
  refine ⟨isText_write m.toJson, ?_, read_write_eq m⟩
  intro ws cs ws' hws hcs hws'
  exact (reads_scan m).whole hws hcs hws'

/-- A manifest with a quote, a letter that is not ASCII and a control character. -/
def quoted : Manifest := ⟨7, [⟨"5e", "\x7ba(b: \"é\")\x7d", "\x07"⟩]⟩

/-- A key with an escaped letter, white space around its colon and at both ends. -/
theorem codec_lossless_quoted :
    read ("\n\x7b\"v\\u0065rsion\" : 7,\"operations\":[\n  \x7b\n    \"signature\": \"5e\",\n" ++
      "    \"document\": \"\x7ba(b: \\\"é\\\")\x7d\",\n    \"metadata\": \x7b\n" ++
      "      \"engineSignature\": \"\\u0007\"\n    \x7d\n  \x7d\n]\x7d ") = .ok quoted := by
  have hversion : Quotes "version" ('"' :: ("v\\u0065rsion".toList ++ ['"'])) := by
    have hcode : Text.Hex.IsCode "0065".toList 'e'.toNat := ⟨by decide, by decide⟩
    have hrest : Quoted.Spelled "rsion".toList "rsion".toList :=
      Quoted.spelled_json "rsion".toList
    have hbody : Quoted.Spelled "v\\u0065rsion".toList "version".toList :=
      .cons (.raw (by decide) (by decide) (by decide) (by decide)) (.cons (.code hcode) hrest)
    have hall : "v\\u0065rsion".toList.all (fun c => !Text.Escape.isLowControl c) = true := by
      decide
    exact .intro hbody fun c hc => by simpa using List.all_eq_true.mp hall c hc
  have hspace : Blank [' '] := List.forall_mem_singleton.mpr rfl
  have hfeed : Blank ['\n'] := List.forall_mem_singleton.mpr rfl
  have hfirst : Keyed "version" (Json.number quoted.version.toNat).IsText _ :=
    .intro hversion hspace hspace (rfl : _ = Nat.toDigits 10 quoted.version.toNat)
  have hsecond := Keyed.intro (quotes_of_faithful Quoted.faithful_json "operations") blank_nil
    blank_nil (isText_layout 0 (.list (quoted.records.map Record.toJson)))
  have hclose : Followed '\x7d' [] ([] ++ ['\x7d']) := .close blank_nil
  have hlisted := Listed.some blank_nil hfirst (.comma blank_nil blank_nil hsecond hclose)
  have hread := (codec_lossless quoted).2.1 _ _ _ hfeed ⟨_, rfl, hlisted⟩ hspace
  refine Eq.trans (congrArg read ?_) hread
  cbv

section Loading

open Simulated

variable {m : Manifest} {path : String} {w : World} {place : Files.Place}

/-- A manifest is loaded from wherever it has been written to. -/
theorem load_eq_of_locate (hpath : w.tree.locate w.here path = .ok place)
    (hnode : w.tree.node? place = some (.file m.write.toUTF8)) :
    ((load path : ExceptT Failure Simulated Manifest).run w).1 = .ok m := by
  have hmachine : (Machine.readText path : Simulated _) w = (.ok m.write, w) := by
    simp only [Machine.readText, Files.Tree.readText_eq_of_locate hpath hnode]
  rw [load, run_lift_bind, hmachine]
  simp only [read_write_eq]
  rfl

/-- Nothing is loaded by a path that leads nowhere. -/
theorem exists_locate_of_load
    (h : ((load path : ExceptT Failure Simulated Manifest).run w).1 = .ok m) :
    ∃ place, w.tree.locate w.here path = .ok place := by
  rw [load, run_lift_bind] at h
  split at h
  · cases h
  · rename_i text htext
    have hread : w.tree.readText w.here path = .ok text := htext
    obtain ⟨place, hplace, -⟩ := bind_eq_ok_iff.mp hread
    exact ⟨place, hplace⟩

end Loading

end Manifest

end Safelist
