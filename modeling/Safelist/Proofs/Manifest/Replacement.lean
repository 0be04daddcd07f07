import Safelist.Manifest.Replacement
import Safelist.Proofs.Files.Entry
import Safelist.Proofs.Machine.Work

/-!
# A file is replaced or left as it was

Where there is room for the temporary sibling of a path, replacing the file of that
path either makes it hold the new text or leaves everything as it was, and never
leaves the sibling.
-/

namespace Safelist.Manifest

open Files Files.Tree Simulated

/-- The place of the temporary sibling of a path. -/
def temporaryPlace? (t : Tree) (here : Place) (target : String) : Option Place :=
  (temporary? target).bind (t.named? here)

/-- There is room for the temporary sibling of a path: nothing is in its place, or a file. -/
def HasRoom (t : Tree) (here : Place) (target : String) : Prop :=
  ∀ p, temporaryPlace? t here target = some p → t.IsVacant p

/-- The file of a path can be replaced where there is room for its temporary sibling. -/
structure Admits (t : Tree) (here : Place) (target : String) : Prop where
  /-- The path of the temporary sibling names an entry. -/
  temporary : ∃ p, temporaryPlace? t here target = some p
  /-- The path names an entry which is not a directory. -/
  output : ∃ q, t.named? here target = some q ∧ t.isDirectory q = false
  /-- Nothing stands behind the name that the path ends in. -/
  bare : ∃ way name, Path.EndsIn target way name

/-- Nothing has changed but the place of the temporary sibling of a path, where nothing is
now. -/
structure Cleared (t : Tree) (here : Place) (target : String) (t' : Tree) : Prop where
  /-- The temporary sibling is not there. -/
  temporary : ∀ p, temporaryPlace? t here target = some p → t'.node? p = none
  /-- Everything else is as it was. -/
  others : ∀ p, temporaryPlace? t here target ≠ some p → t'.node? p = t.node? p

/-- Nothing has changed but the place of the temporary sibling of a path, where nothing is now,
and the entry that the path names, which holds a text now. -/
structure Replaced (t : Tree) (here : Place) (target text : String) (t' : Tree) (output : Place) :
    Prop where
  /-- The path names the entry. -/
  entry : t.named? here target = some output
  /-- The entry is a file that holds the text. -/
  content : t'.node? output = some (.file text.toUTF8)
  /-- The temporary sibling is not there. -/
  temporary : ∀ p, temporaryPlace? t here target = some p → t'.node? p = none
  /-- Everything else is as it was. -/
  others : ∀ p, p ≠ output → temporaryPlace? t here target ≠ some p → t'.node? p = t.node? p
  /-- The path leads to the entry, unless it led over the entry itself. -/
  leads : (t.erase output).named? here target = some output → t'.locate here target = .ok output
  /-- Otherwise the path leads nowhere. -/
  leads_only : ∀ p, t'.locate here target = .ok p →
    (t.erase output).named? here target = some output

/-- What becomes of a world in which a file is replaced. -/
inductive Replacement (target text : String) (w : World) : Except Failure Unit × World → Prop
  /-- The file could not be replaced. -/
  | failed {f : Failure} {t : Tree} (hrefused : ¬Admits w.tree w.here target)
      (hcode : f.code = "OPM_EXTRACT_IO") (h : Cleared w.tree w.here target t) :
      Replacement target text w (.error f, { w with tree := t })
  /-- The file has been replaced. -/
  | done {t : Tree} {output : Place} (hadmits : Admits w.tree w.here target)
      (h : Replaced w.tree w.here target text t output) :
      Replacement target text w (.ok (), { w with tree := t })

variable {target temporary text : String} {w : World} {t t' : Tree} {here p : Place}

theorem temporaryPlace?_eq (htemp : temporary? target = some temporary) :
    temporaryPlace? t here target = t.named? here temporary := by
  rw [temporaryPlace?, htemp, Option.bind_some]

/-- The temporary sibling is removed when it could be neither made nor moved. -/
theorem cleared_remove (htemp : temporary? target = some temporary)
    (hroom : HasRoom t here target) :
    Cleared t here target ((t.remove here temporary).toOption.getD t) := by
  obtain ⟨way, name, he, -⟩ := exists_endsIn_temporary htemp
  have hentry : temporaryPlace? t here target = t.named? here temporary := temporaryPlace?_eq htemp
  have hremoved := node?_remove he fun p hp => hroom p (hentry ▸ hp)
  constructor
  · intro p hp
    rw [hremoved, if_pos (hentry ▸ hp)]
  · intro p hp
    rw [hremoved, if_neg (hentry ▸ hp)]

section Taken

variable {path name : String} {way : List String} {output : Place} {bytes : ByteArray}
  (he : Path.EndsIn path way name) (hentry : t.named? here path = some output)
  (hcontent : t'.node? output = some (.file bytes))
  (hothers : ∀ q, q ≠ output → q ≠ p → t'.node? q = t.node? q)

include he hentry hcontent hothers

/-- Where a file has taken the place of an entry, the path of the entry leads to it if no way to
it went over the entry. -/
theorem locate_eq_of_taken (hvacant : t.IsVacant p)
    (h : (t.erase output).named? here path = some output) :
    t'.locate here path = .ok output := by
  have houtput := named?_ne_nil hentry
  -- What has been put there or taken away is a file, and no way goes over a file.
  have hways : (t.erase output).KeepsWays t' := by
    intro q node hnode hway
    have ho : q ≠ output := by
      rintro rfl
      rw [node?_erase_self houtput] at hnode
      cases hnode
    rw [node?_erase_of_ne ho] at hnode
    have hq : q ≠ p := by
      rintro rfl
      obtain ⟨bytes, hbytes⟩ := hvacant _ hnode
      exact hway bytes hbytes
    rw [hothers q ho hq, hnode]
  exact locate_eq_of_named? he (hways.named?_eq he h) hcontent

/-- No other path of the entry leads anywhere. -/
theorem named?_erase_of_taken (hnone : t'.node? p = none) {q : Place}
    (h : t'.locate here path = .ok q) : (t.erase output).named? here path = some output := by
  have houtput := named?_ne_nil hentry
  have hways : t'.KeepsWays (t.erase output) := by
    intro q node hnode hway
    have ho : q ≠ output := by
      rintro rfl
      exact hway bytes (Option.some.inj (hnode.symm.trans hcontent))
    have hq : q ≠ p := by
      rintro rfl
      rw [hnone] at hnode
      cases hnode
    rw [node?_erase_of_ne ho, ← hothers q ho hq, hnode]
  obtain ⟨q, hq⟩ := exists_named?_of_locate he h
  have herased := hways.named?_eq he hq
  obtain rfl : output = q := by
    have hbefore := (erase_keepsWays houtput).named?_eq he herased
    exact Option.some.inj (hentry.symm.trans hbefore)
  exact herased

end Taken

section Made

variable (htemp : temporary? target = some temporary) (hroom : HasRoom t here target)
  (hp : t.named? here temporary = some p)

include htemp hroom hp

/-- The temporary sibling is where it was when it has been made. -/
theorem temporaryPlace?_made (bytes : ByteArray) :
    temporaryPlace? (t.set p (.file bytes)) here target = some p := by
  obtain ⟨way, name, he, -⟩ := exists_endsIn_temporary htemp
  have hvacant := hroom p (by rw [temporaryPlace?_eq htemp, hp])
  rw [temporaryPlace?_eq htemp, (keepsWays_set_file hvacant bytes).named?_eq he hp]

/-- What has been made and could not be moved is removed. -/
theorem cleared_remove_made (bytes : ByteArray) :
    Cleared t here target (((t.set p (.file bytes)).remove here temporary).toOption.getD
      (t.set p (.file bytes))) := by
  have hmade := temporaryPlace?_made htemp hroom hp bytes
  have hroom' : HasRoom (t.set p (.file bytes)) here target := by
    intro q hq node hnode
    rw [← Option.some.inj (hmade.symm.trans hq), node?_set_self (named?_ne_nil hp)] at hnode
    exact ⟨bytes, (Option.some.inj hnode).symm⟩
  have hcleared := cleared_remove htemp hroom'
  have hentry : temporaryPlace? t here target = some p := (temporaryPlace?_eq htemp).trans hp
  constructor
  · intro q hq
    exact hcleared.temporary q (hmade.trans (hentry.symm.trans hq))
  · intro q hq
    have hne : q ≠ p := fun h => hq (h ▸ hentry)
    rw [hcleared.others q (hmade ▸ hentry ▸ hq), node?_set_of_ne hne]

omit hroom in
/-- The temporary sibling is not what the path names. -/
theorem ne_of_named? {way : List String} {name : String} {q : Place}
    (he : Path.EndsIn target way name) (hq : t.named? here target = some q) : p ≠ q := by
  obtain ⟨_, _, htempEnds, hdiffers⟩ := exists_endsIn_temporary htemp
  obtain ⟨-, -, d, -, hd, -⟩ := (named?_eq_some_iff htempEnds).mp hp
  obtain ⟨-, -, d', -, hd', -⟩ := (named?_eq_some_iff he).mp hq
  rintro rfl
  have hname := (List.append_inj' (hd.symm.trans hd') rfl).2
  rw [he.fileName?, ← (List.cons.inj hname).1] at hdiffers
  exact hdiffers rfl

/-- What has been made can be moved to where a file can be replaced. -/
theorem Admits.exists_move (h : Admits t here target) (bytes : ByteArray) :
    ∃ t', (t.set p (.file bytes)).move here temporary target = .ok t' := by
  obtain ⟨_, _, htempEnds, -⟩ := exists_endsIn_temporary htemp
  obtain ⟨q, hq, hdir⟩ := h.output
  obtain ⟨_, _, he⟩ := h.bare
  have hvacant := hroom p (by rw [temporaryPlace?_eq htemp, hp])
  have hways := keepsWays_set_file hvacant bytes
  have hne := ne_of_named? htemp hp he hq
  refine ⟨_, move_eq_ok htempEnds he (hways.named?_eq htempEnds hp) (hways.named?_eq he hq)
    (node?_set_self (named?_ne_nil hp) _) Node.noConfusion ?_⟩
  rwa [isDirectory, node?_set_of_ne hne.symm]

omit hroom hp in
/-- Wherever a file has been put, what is moved is what the temporary sibling names, and it is moved
to the entry that the path names. -/
theorem exists_of_move_set {l : Place} (hl : l ≠ []) {bytes : ByteArray}
    (h : (t.set l (.file bytes)).move here temporary target = .ok t') :
    ∃ p q node, t.named? here temporary = some p ∧ t.named? here target = some q ∧
      (∃ way name, Path.EndsIn target way name) ∧
      (t.set l (.file bytes)).node? p = some node ∧
      (t.set l (.file bytes)).isDirectory q = false ∧
      t' = ((t.set l (.file bytes)).erase p).set q node := by
  obtain ⟨_, _, he, -⟩ := exists_endsIn_temporary htemp
  have hways := set_file_keepsWays (t := t) hl bytes
  obtain ⟨p, q, node, hp, hq, ⟨way, name, hends⟩, hnode, hdir, rfl⟩ := exists_of_move h
  exact ⟨p, q, node, hways.named?_eq he hp, hways.named?_eq hends hq, ⟨way, name, hends⟩, hnode,
    hdir, rfl⟩

omit hroom in
/-- What has been made is moved to the entry that the path names. -/
theorem exists_of_move_made {bytes : ByteArray}
    (h : (t.set p (.file bytes)).move here temporary target = .ok t') :
    ∃ q, t.named? here target = some q ∧ Admits t here target ∧
      t' = ((t.set p (.file bytes)).erase p).set q (.file bytes) := by
  have hpnil := named?_ne_nil hp
  obtain ⟨p', q, node, hp', hq, ⟨way, name, hends⟩, hnode, hdir, rfl⟩ :=
    exists_of_move_set htemp hpnil h
  -- Making the sibling has not moved it, so it is the sibling that is moved.
  obtain rfl : p = p' := Option.some.inj (hp.symm.trans hp')
  obtain rfl : .file bytes = node := by
    rw [node?_set_self hpnil] at hnode
    exact Option.some.inj hnode
  have hne := ne_of_named? htemp hp hends hq
  rw [isDirectory, node?_set_of_ne hne.symm] at hdir
  exact ⟨q, hq, ⟨⟨p, (temporaryPlace?_eq htemp).trans hp⟩, ⟨q, hq, hdir⟩, way, name, hends⟩, rfl⟩

/-- What has been made and moved is in the place of the entry that the path names. -/
theorem replaced_moved {way : List String} {name : String} {q : Place}
    (he : Path.EndsIn target way name) (hq : t.named? here target = some q) :
    Replaced t here target text
      (((t.set p (.file text.toUTF8)).erase p).set q (.file text.toUTF8)) q := by
  have hvacant := hroom p (by rw [temporaryPlace?_eq htemp, hp])
  have hpnil := named?_ne_nil hp
  have hqnil := named?_ne_nil hq
  have hne := ne_of_named? htemp hp he hq
  have htempPlace : temporaryPlace? t here target = some p := (temporaryPlace?_eq htemp).trans hp
  set t' := ((t.set p (.file text.toUTF8)).erase p).set q (.file text.toUTF8)
  have hcontent : t'.node? q = some (.file text.toUTF8) := node?_set_self hqnil _
  have hnone : t'.node? p = none := by rw [node?_set_of_ne hne, node?_erase_self hpnil]
  have hothers : ∀ r, r ≠ q → r ≠ p → t'.node? r = t.node? r := fun r hrq hrp => by
    rw [node?_set_of_ne hrq, node?_erase_of_ne hrp, node?_set_of_ne hrp]
  refine ⟨hq, hcontent, fun r hr => ?_, fun r hrq hr => ?_,
    locate_eq_of_taken he hq hcontent hothers hvacant,
    fun r => named?_erase_of_taken he hq hcontent hothers hnone⟩
  · rwa [← Option.some.inj (htempPlace.symm.trans hr)]
  · exact hothers r hrq fun h => hr (h ▸ htempPlace)

end Made

/-- Replacing a file as a change of a tree. -/
theorem run_replaceFile (target text : String) (w : World) :
    (replaceFile target text : ExceptT Failure Simulated Unit).run w =
      match temporary? target with
      | none => (.error (.noFileName target), w)
      | some temporary =>
        match w.tree.create w.here temporary text.toUTF8 with
        | .error fault =>
          (.error (.file .create temporary fault),
            { w with tree := (w.tree.remove w.here temporary).toOption.getD w.tree })
        | .ok t =>
          match t.move w.here temporary target with
          | .error fault =>
            (.error (.file .replace target fault),
              { w with tree := (t.remove w.here temporary).toOption.getD t })
          | .ok t' => (.ok (), { w with tree := t' }) := by
  unfold replaceFile
  cases temporary? target with
  | none => rfl
  | some temporary =>
    simp only [run_lift_bind]
    cases hcreate : w.tree.create w.here temporary text.toUTF8 with
    | error fault =>
      have hwrite : (Machine.writeText temporary text : Simulated _) w =
          (.error (.create, fault), w) := by
        simp only [Machine.writeText, hcreate, Except.mapError, World.withTree]
      rw [hwrite]
      rfl
    | ok t =>
      have hwrite : (Machine.writeText temporary text : Simulated _) w =
          (.ok (), { w with tree := t }) := by
        simp only [Machine.writeText, hcreate, Except.mapError, World.withTree]
      rw [hwrite, run_lift_bind]
      cases hmove : t.move w.here temporary target with
      | error fault =>
        have hmoved : (Machine.move temporary target : Simulated _) { w with tree := t } =
            (.error fault, { w with tree := t }) := by
          simp only [Machine.move, hmove, World.withTree]
        simp only [hmoved, hmove]
        rfl
      | ok t' =>
        have hmoved : (Machine.move temporary target : Simulated _) { w with tree := t } =
            (.ok (), { w with tree := t' }) := by
          simp only [Machine.move, hmove, World.withTree]
        simp only [hmoved, hmove]
        rfl

/-- Replacing a file does so or leaves everything as it was. -/
theorem replacement_replaceFile (text : String) (hroom : HasRoom w.tree w.here target) :
    Replacement target text w
      ((replaceFile target text : ExceptT Failure Simulated Unit).run w) := by
  rw [run_replaceFile]
  split
  · rename_i htemp
    have hnone : temporaryPlace? w.tree w.here target = none := by rw [temporaryPlace?, htemp]; rfl
    have hcleared : Cleared w.tree w.here target w.tree :=
      ⟨fun p hp => by simp [hnone] at hp, fun p _ => rfl⟩
    refine .failed (fun h => ?_) rfl hcleared
    obtain ⟨p, hp⟩ := h.temporary
    simp [hnone] at hp
  · rename_i temporary htemp
    have hentry : temporaryPlace? w.tree w.here target = w.tree.named? w.here temporary :=
      temporaryPlace?_eq htemp
    obtain ⟨way, name, he, -⟩ := exists_endsIn_temporary htemp
    split
    · rename_i hcreate
      refine .failed (fun h => ?_) rfl (cleared_remove htemp hroom)
      obtain ⟨p, hp⟩ := h.temporary
      rw [create_eq_ok he (hentry ▸ hp) (hroom p hp)] at hcreate
      cases hcreate
    · rename_i t hcreate
      obtain ⟨p, hp, rfl⟩ := exists_of_create he (fun p hp => hroom p (hentry ▸ hp)) hcreate
      split
      · rename_i hmove
        refine .failed (fun h => ?_) rfl (cleared_remove_made htemp hroom hp _)
        obtain ⟨t', ht'⟩ := h.exists_move htemp hroom hp text.toUTF8
        rw [ht'] at hmove
        cases hmove
      · rename_i hmove
        obtain ⟨q, hq, hadmits, rfl⟩ := exists_of_move_made htemp hp hmove
        obtain ⟨_, _, hends⟩ := hadmits.bare
        exact .done hadmits (replaced_moved htemp hroom hp hends hq)

end Safelist.Manifest
