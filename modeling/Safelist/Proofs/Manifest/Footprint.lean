import Safelist.Proofs.Manifest.Replacement

/-!
# What replacing a file can reach

The temporary sibling of a path is moved and removed as an entry of its directory, but
it is written by following links. So where a link is in its place, the text goes to where
the link leads, and the link takes the place of the file that was to be replaced. Where
no link is there, nothing is reached but the sibling and the entry that the path names.
-/

namespace Safelist.Manifest

open Files Files.Tree Simulated

/-- Where writing to the temporary sibling of a path lands, links followed. -/
def landing? (t : Tree) (here : Place) (target : String) : Option Place :=
  (temporary? target).bind fun temporary => (t.landed here temporary).toOption

/-- The places that are changed before a file is replaced: that of the temporary sibling, and
the one where writing to it lands. -/
def IsScratch (t : Tree) (here : Place) (target : String) (p : Place) : Prop :=
  temporaryPlace? t here target = some p ∨ landing? t here target = some p

/-- No link is in the place of the temporary sibling of a path. -/
def Unlinked (t : Tree) (here : Place) (target : String) : Prop :=
  ∀ p link, temporaryPlace? t here target = some p → t.node? p ≠ some (.link link)

/-- What replacing a file comes to, whatever is in the place of the temporary sibling. -/
structure Footprint (target text : String) (w : World) (r : Except Failure Unit × World) :
    Prop where
  /-- Nothing changes but the tree. -/
  tree_only : r.2 = { w with tree := r.2.tree }
  /-- A file that is not replaced costs the scratch places alone. -/
  failed : ∀ f, r.1 = .error f → ∀ p, ¬IsScratch w.tree w.here target p →
    r.2.tree.node? p = w.tree.node? p
  /-- A file that is replaced costs the scratch places and the entry that the path names. -/
  done : r.1 = .ok () → ∃ output, w.tree.named? w.here target = some output ∧
    ∀ p, p ≠ output → ¬IsScratch w.tree w.here target p → r.2.tree.node? p = w.tree.node? p
  /-- Without a link, the place of the sibling is the only scratch place. -/
  direct : Unlinked w.tree w.here target → ∀ p, IsScratch w.tree w.here target p →
    temporaryPlace? w.tree w.here target = some p
  /-- Without a link, the entry holds the text, and the path reads it unless the path led over the
  entry itself. -/
  kept : Unlinked w.tree w.here target → r.1 = .ok () → ∀ output,
    w.tree.named? w.here target = some output →
      r.2.tree.node? output = some (.file text.toUTF8) ∧
        (r.2.tree.readText w.here target = .ok text ↔
          (w.tree.erase output).named? w.here target = some output)
  /-- A link takes the place of the entry, and the text is where the link led, unless that was the
  entry itself. -/
  diverted : ∀ p link, temporaryPlace? w.tree w.here target = some p →
    w.tree.node? p = some (.link link) → r.1 = .ok () → ∀ output,
      w.tree.named? w.here target = some output →
        r.2.tree.node? output = some (.link link) ∧
          ∀ q, landing? w.tree w.here target = some q → q ≠ output →
            r.2.tree.node? q = some (.file text.toUTF8)

variable {target temporary text : String} {w : World} {t t' : Tree} {here l p : Place}
  {bytes : ByteArray}

theorem landing?_eq_some_iff (htemp : temporary? target = some temporary) :
    landing? t here target = some p ↔ t.landed here temporary = .ok p := by
  rw [landing?, htemp, Option.bind_some]
  cases t.landed here temporary <;> simp [Except.toOption]

/-- Where no link is in its place, the temporary sibling is written in its place. -/
theorem temporaryPlace?_of_landing? (hlink : Unlinked t here target)
    (h : landing? t here target = some p) : temporaryPlace? t here target = some p := by
  obtain ⟨temporary, htemp, -⟩ := Option.bind_eq_some_iff.mp h
  obtain ⟨way, name, he, -⟩ := exists_endsIn_temporary htemp
  have hentry : temporaryPlace? t here target = t.named? here temporary := temporaryPlace?_eq htemp
  rw [hentry]
  refine named?_of_landed he ((landing?_eq_some_iff htemp).mp h) fun q link hq => ?_
  exact hlink q link (hentry.trans hq)

/-- There is room for the temporary sibling where it can be written and no link is in its place. -/
theorem hasRoom_of_landing? (hlink : Unlinked t here target)
    (h : landing? t here target = some l) : HasRoom t here target := by
  intro p hp
  obtain ⟨temporary, htemp, -⟩ := Option.bind_eq_some_iff.mp h
  obtain rfl : l = p := Option.some.inj ((temporaryPlace?_of_landing? hlink h).symm.trans hp)
  exact (isVacant_of_landed ((landing?_eq_some_iff htemp).mp h)).1

section Landed

variable (htemp : temporary? target = some temporary) (hland : t.landed here temporary = .ok l)

include htemp hland

/-- What could be written and not moved is removed from the place of the sibling. -/
theorem node?_remove_landed (h : ¬IsScratch t here target p) :
    (((t.set l (.file bytes)).remove here temporary).toOption.getD
      (t.set l (.file bytes))).node? p = t.node? p := by
  obtain ⟨way, name, he, -⟩ := exists_endsIn_temporary htemp
  have hl := (isVacant_of_landed hland).2
  have hlanded : p ≠ l := by
    rintro rfl
    exact h (.inr ((landing?_eq_some_iff htemp).mpr hland))
  have hentry : (t.set l (.file bytes)).named? here temporary ≠ some p := fun hp =>
    h (.inl ((temporaryPlace?_eq htemp).trans ((set_file_keepsWays hl bytes).named?_eq he hp)))
  rw [node?_remove_of_ne hentry, node?_set_of_ne hlanded]

/-- What could be written and moved is at the entry that the path names. -/
theorem node?_move_landed (h : (t.set l (.file bytes)).move here temporary target = .ok t') :
    ∃ output, t.named? here target = some output ∧
      (∀ p, p ≠ output → ¬IsScratch t here target p → t'.node? p = t.node? p) ∧
      ∀ p link, temporaryPlace? t here target = some p → t.node? p = some (.link link) →
        t'.node? output = some (.link link) ∧ (l ≠ output → t'.node? l = some (.file bytes)) := by
  obtain ⟨hvacant, hl⟩ := isVacant_of_landed hland
  obtain ⟨p, output, node, hp, houtput, -, hnode, -, rfl⟩ := exists_of_move_set htemp hl h
  have hentry : temporaryPlace? t here target = some p := (temporaryPlace?_eq htemp).trans hp
  refine ⟨output, houtput, fun q hq hscratch => ?_, fun p' link hp' hlink => ?_⟩
  · have hqp : q ≠ p := fun h => hscratch (.inl (h ▸ hentry))
    have hql : q ≠ l := fun h => hscratch (.inr (h ▸ (landing?_eq_some_iff htemp).mpr hland))
    rw [node?_set_of_ne hq, node?_erase_of_ne hqp, node?_set_of_ne hql]
  · obtain rfl : p = p' := Option.some.inj (hentry.symm.trans hp')
    -- Nothing lands at a link, so the link is what is moved.
    have hlp : l ≠ p := by
      rintro rfl
      obtain ⟨bytes, hbytes⟩ := hvacant _ hlink
      cases hbytes
    obtain rfl : .link link = node := by
      rw [node?_set_of_ne hlp.symm, hlink] at hnode
      exact Option.some.inj hnode
    refine ⟨node?_set_self (named?_ne_nil houtput) _, fun hlo => ?_⟩
    rw [node?_set_of_ne hlo, node?_erase_of_ne hlp, node?_set_self hl]

end Landed

/-- A path reads the text of the file that has been replaced when it does not lead over it. -/
theorem Replaced.readText_eq_ok_iff {output : Place}
    (h : Replaced t here target text t' output) :
    t'.readText here target = .ok text ↔ (t.erase output).named? here target = some output := by
  constructor
  · intro hread
    obtain ⟨p, hp, -⟩ := bind_eq_ok_iff.mp hread
    exact h.leads_only p hp
  · intro hleads
    exact readText_eq_of_locate (h.leads hleads) h.content

/-- The two ends of replacing a file. -/
inductive Course (target text : String) (w : World) : Except Failure Unit × World → Prop
  /-- The file has not been replaced. -/
  | refused {f : Failure} {t : Tree}
      (h : ∀ p, ¬IsScratch w.tree w.here target p → t.node? p = w.tree.node? p) :
      Course target text w (.error f, { w with tree := t })
  /-- The text has landed somewhere, and the sibling has been moved to the entry. -/
  | moved {t : Tree} {l output : Place} (hland : landing? w.tree w.here target = some l)
      (hentry : w.tree.named? w.here target = some output)
      (h : ∀ p, p ≠ output → ¬IsScratch w.tree w.here target p → t.node? p = w.tree.node? p)
      (hlink : ∀ p link, temporaryPlace? w.tree w.here target = some p →
        w.tree.node? p = some (.link link) → t.node? output = some (.link link) ∧
          (l ≠ output → t.node? l = some (.file text.toUTF8))) :
      Course target text w (.ok (), { w with tree := t })

/-- Replacing a file comes to one of the two ends. -/
theorem course_replaceFile (target text : String) (w : World) :
    Course target text w ((replaceFile target text : ExceptT Failure Simulated Unit).run w) := by
  rw [run_replaceFile]
  split
  · exact .refused fun p _ => rfl
  · rename_i temporary htemp
    rw [create_eq]
    cases hland : w.tree.landed w.here temporary with
    | error fault =>
      refine .refused fun p hp => node?_remove_of_ne fun hentry => hp (.inl ?_)
      exact (temporaryPlace?_eq htemp).trans hentry
    | ok l =>
      simp only [Except.map]
      split
      · exact .refused fun p hp => node?_remove_landed htemp hland hp
      · rename_i t hmove
        obtain ⟨output, hentry, hothers, hlink⟩ := node?_move_landed htemp hland hmove
        exact .moved ((landing?_eq_some_iff htemp).mpr hland) hentry hothers hlink

/-- A file that is replaced where no link is in the place of the sibling holds the text. -/
theorem Course.replaced {r : Except Failure Unit × World} (hcourse : Course target text w r)
    (hr : (replaceFile target text : ExceptT Failure Simulated Unit).run w = r)
    (hlink : Unlinked w.tree w.here target) (hok : r.1 = .ok ()) :
    ∃ output, Replaced w.tree w.here target text r.2.tree output := by
  cases hcourse with
  | refused => cases hok
  | moved hland =>
    have hreplacement := replacement_replaceFile text (hasRoom_of_landing? hlink hland)
    rw [hr] at hreplacement
    cases hreplacement with
    | done _ h => exact ⟨_, h⟩

/-- Replacing a file reaches nothing but the scratch places and the entry that the path names.
Without a link the scratch place is the sibling's alone, and the entry holds the text. -/
theorem footprint_replaceFile (target text : String) (w : World) :
    Footprint target text w ((replaceFile target text : ExceptT Failure Simulated Unit).run w) := by
  have hcourse := course_replaceFile target text w
  generalize hr : (replaceFile target text : ExceptT Failure Simulated Unit).run w = r at *
  have hdirect : Unlinked w.tree w.here target → ∀ p, IsScratch w.tree w.here target p →
      temporaryPlace? w.tree w.here target = some p := fun hlink p hp =>
    hp.elim id (temporaryPlace?_of_landing? hlink)
  have hkept : Unlinked w.tree w.here target → r.1 = .ok () → ∀ output,
      w.tree.named? w.here target = some output →
        r.2.tree.node? output = some (.file text.toUTF8) ∧
          (r.2.tree.readText w.here target = .ok text ↔
            (w.tree.erase output).named? w.here target = some output) := by
    intro hlink hok output houtput
    obtain ⟨q, h⟩ := hcourse.replaced hr hlink hok
    obtain rfl : q = output := Option.some.inj (h.entry.symm.trans houtput)
    exact ⟨h.content, h.readText_eq_ok_iff⟩
  cases hcourse with
  | refused h =>
    exact ⟨rfl, fun _ _ => h, fun hok => (by cases hok), hdirect, hkept,
      fun _ _ _ _ hok => (by cases hok)⟩
  | moved hland hentry h hlink =>
    refine ⟨rfl, fun f hf => (by cases hf), fun _ => ⟨_, hentry, h⟩, hdirect, hkept, ?_⟩
    intro p link hp hnode _ output houtput
    obtain rfl := Option.some.inj (hentry.symm.trans houtput)
    obtain ⟨hmoved, htext⟩ := hlink p link hp hnode
    refine ⟨hmoved, fun q hq hne => ?_⟩
    obtain rfl := Option.some.inj (hland.symm.trans hq)
    exact htext hne

section Linked

/-- Replacing a file where a link is in the place of the temporary sibling writes through the link
and moves it over the file. -/
theorem run_replaceFile_of_link {link name : String} {way : List String} {output : Place}
    (htemp : temporary? target = some temporary)
    (hp : w.tree.named? w.here temporary = some p) (hnode : w.tree.node? p = some (.link link))
    (hland : w.tree.landed w.here temporary = .ok l) (he : Path.EndsIn target way name)
    (hentry : w.tree.named? w.here target = some output)
    (hdir : w.tree.isDirectory output = false) (text : String) :
    (replaceFile target text : ExceptT Failure Simulated Unit).run w = (.ok (), { w with
      tree := ((w.tree.set l (.file text.toUTF8)).erase p).set output (.link link) }) := by
  obtain ⟨hvacant, hl⟩ := isVacant_of_landed hland
  obtain ⟨_, _, htempEnds, -⟩ := exists_endsIn_temporary htemp
  have hways := keepsWays_set_file hvacant text.toUTF8
  have hpl : p ≠ l := by
    rintro rfl
    obtain ⟨bytes, hbytes⟩ := hvacant _ hnode
    cases hbytes
  have hfile : (w.tree.set l (.file text.toUTF8)).isDirectory output = false := by
    by_cases ho : output = l
    · rw [ho, isDirectory, node?_set_self hl]
      rfl
    · rwa [isDirectory, node?_set_of_ne ho]
  have hmove := move_eq_ok htempEnds he (hways.named?_eq htempEnds hp) (hways.named?_eq he hentry)
    ((node?_set_of_ne hpl _).trans hnode) Node.noConfusion hfile
  have hcreate : w.tree.create w.here temporary text.toUTF8 =
      .ok (w.tree.set l (.file text.toUTF8)) := by
    rw [create_eq, hland]
    rfl
  rw [run_replaceFile, htemp]
  simp only [hcreate, hmove]

/-- A world in which a link is in the place of the temporary sibling of a file. -/
def linkedWorld (link : String) : World :=
  ⟨⟨[([".m.tmp"], .link link), (["m"], .file "old".toUTF8), (["keep"], .file "kept".toUTF8)]⟩,
    [], .info, [], [], ""⟩

/-- A name leads to an entry of the root. -/
theorem named?_linked {link name : String} (he : Path.EndsIn name [] name)
    (hcheck : checkPath name = .ok ()) (horigin : origin [] name = [])
    (hshort : name.utf8ByteSize ≤ maxNameBytes) :
    (linkedWorld link).tree.named? [] name = some [name] := by
  have hname : IsName name := ⟨he.loud, he.ne_up, hshort⟩
  refine (named?_eq_some_iff he).mpr ⟨hcheck, hname, [], maxLinks, rfl, rfl, ?_⟩
  rw [horigin]
  exact .arrive

theorem endsIn_replaced : Path.EndsIn "m" [] "m" := ⟨by decide, by decide, by decide⟩

theorem named?_replaced_linked (link : String) :
    (linkedWorld link).tree.named? [] "m" = some ["m"] :=
  named?_linked endsIn_replaced (by decide) (by decide) (by decide)

theorem named?_temporary_linked (link : String) :
    (linkedWorld link).tree.named? [] ".m.tmp" = some [".m.tmp"] :=
  named?_linked ⟨by decide, by decide, by decide⟩ (by decide) (by decide)
    (by decide)

/-- The temporary sibling is written at the file that the link leads to. -/
theorem landed_linked {link : String} {bytes : ByteArray} (hpieces : Path.pieces link = [link])
    (horigin : origin [] link = []) (hlink : IsName link)
    (hnode : (linkedWorld link).tree.node? [link] = some (.file bytes)) :
    (linkedWorld link).tree.landed [] ".m.tmp" = .ok [link] := by
  have hcheck : checkPath ".m.tmp" = .ok () := by decide
  have hsource : origin [] ".m.tmp" = [] ∧ Path.pieces ".m.tmp" = [".m.tmp"] := by decide
  have htemp : IsName ".m.tmp" := ⟨by decide, by decide, by decide⟩
  have hfollow : (linkedWorld link).tree.node? ([] ++ [".m.tmp"]) = some (.link link) := rfl
  refine check_bind_eq_ok_iff.mpr ⟨hcheck, ?_⟩
  rw [hsource.1, hsource.2, maxLinks, land_of_isName rfl htemp (by simp), hfollow]
  simp only [horigin, hpieces, List.append_nil]
  refine land_name rfl hlink fun node hn => ⟨bytes, ?_⟩
  exact Option.some.inj (hn.symm.trans hnode)

/-- What replacing the file comes to there. -/
def linkedRun (link : String) : Except Failure Unit × World :=
  (replaceFile "m" "new" : ExceptT Failure Simulated Unit).run (linkedWorld link)

/-- The file is replaced by the link, and the file that the link leads to by the text. -/
theorem linkedRun_eq {link : String} {bytes : ByteArray}
    (hpieces : Path.pieces link = [link]) (horigin : origin [] link = []) (hlink : IsName link)
    (hnode : (linkedWorld link).tree.node? [link] = some (.file bytes)) :
    linkedRun link = (.ok (), { linkedWorld link with
      tree := (((linkedWorld link).tree.set [link] (.file "new".toUTF8)).erase
        [".m.tmp"]).set ["m"] (.link link) }) :=
  run_replaceFile_of_link (w := linkedWorld link) (by decide)
    (named?_temporary_linked link) rfl (landed_linked hpieces horigin hlink hnode)
    endsIn_replaced (named?_replaced_linked link) rfl "new"

/-- No walk arrives over a link to itself. -/
theorem not_walks_of_self_link {name : String} {links links' : Nat} {d : Place}
    (horigin : origin [] name = []) (hpieces : Path.pieces name = [name])
    (hname : IsName name) (hnode : t.node? [name] = some (.link name)) :
    ¬Walks t links [] [name] links' d := by
  have hround : ∀ {links}, Walks t links [] [name] links' d →
      ∃ n, links = n + 1 ∧ Walks t n [] [name] links' d := by
    intro links h
    cases h with
    | stay _ hsilent => simp [hname.loud] at hsilent
    | ascend => exact absurd rfl hname.ne_up
    | enter _ _ hentered hlink =>
      exact absurd (Option.some.inj (hentered.symm.trans hnode)) (hlink name)
    | @follow n _ _ _ _ _ _ _ _ hfollowed h =>
      cases Option.some.inj (hfollowed.symm.trans hnode)
      rw [horigin, hpieces] at h
      exact ⟨n, rfl, h⟩
  -- Every round costs a link.
  intro h
  induction links with
  | zero =>
    obtain ⟨n, hn, -⟩ := hround h
    omega
  | succ links ih =>
    obtain ⟨n, hn, h⟩ := hround h
    cases hn
    exact ih h

end Linked

/-- Where a link is in the place of the temporary sibling, a replacement that succeeds may change
another file, and may leave a path by which nothing is read. -/
theorem replaceFile_follows_link :
    ((linkedRun "keep").1 = .ok () ∧
      temporaryPlace? (linkedWorld "keep").tree [] "m" ≠ some ["keep"] ∧
      (linkedWorld "keep").tree.named? [] "m" ≠ some ["keep"] ∧
      (linkedRun "keep").2.tree.node? ["keep"] ≠ (linkedWorld "keep").tree.node? ["keep"]) ∧
    ((linkedRun "m").1 = .ok () ∧
      ∀ text, (linkedRun "m").2.tree.readText [] "m" ≠ .ok text) := by
  have hnames : IsName "keep" ∧ IsName "m" :=
    ⟨⟨by decide, by decide, by decide⟩, ⟨by decide, by decide, by decide⟩⟩
  have hkeep := linkedRun_eq (by decide) (by decide) hnames.1 rfl
  have hself := linkedRun_eq (by decide) (by decide) hnames.2 rfl
  have htemp : temporary? "m" = some ".m.tmp" := by decide
  rw [hkeep, hself]
  refine ⟨⟨rfl, ?_, ?_, ?_⟩, rfl, fun text hread => ?_⟩
  · rw [temporaryPlace?_eq htemp, named?_temporary_linked]
    decide
  · rw [named?_replaced_linked]
    decide
  · have hafter : ((((linkedWorld "keep").tree.set ["keep"] (.file "new".toUTF8)).erase
        [".m.tmp"]).set ["m"] (.link "keep")).node? ["keep"] = some (.file "new".toUTF8) := by
      rw [node?_set_of_ne (by decide), node?_erase_of_ne (by decide), node?_set_self (by decide)]
    have hbefore : (linkedWorld "keep").tree.node? ["keep"] = some (.file "kept".toUTF8) := rfl
    rw [hafter, hbefore]
    intro hsame
    have hbytes : "new".toUTF8.size = "kept".toUTF8.size := by
      injection hsame with hfile
      injection hfile with hbytes
      rw [hbytes]
    exact absurd hbytes (by decide)
  · obtain ⟨p, hp, -⟩ := bind_eq_ok_iff.mp hread
    obtain ⟨-, hwalk⟩ := check_bind_eq_ok_iff.mp hp
    obtain ⟨links, hw⟩ := walk_eq_ok_iff.mp hwalk
    have hplace : origin [] "m" = [] ∧ Path.pieces "m" = ["m"] := by decide
    rw [hplace.1, hplace.2] at hw
    exact not_walks_of_self_link hplace.1 hplace.2 hnames.2 (node?_set_self (by decide) _) hw

end Safelist.Manifest
