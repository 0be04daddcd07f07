import Mathlib.Data.List.Basic
import Safelist.Proofs.Machine.Work

/-!
# Every scope is accounted for

Whoever holds a scope ends it as complete or as failed, or lets go of it. Ending a scope
lets go of it too, and a mark on it keeps it from being reported as dropped. So in a run
that opens scopes and lets go of every one, in any order, each scope has two lines in the
log: that of its beginning and later that of its end. The values it was opened with are on
both, unless it was dropped; the line of a dropped scope has its reason alone.
-/

namespace Safelist

/-- The entries in the log of a world. -/
def World.entries (w : World) : List Log.Entry :=
  w.complaints.filterMap fun
    | .entry e => some e
    | .text _ => none

namespace Machine

/-- A scope in someone's hands. -/
structure Handle where
  /-- The scope. -/
  scope : Log.Scope
  /-- Whether its end has been reported. -/
  isEnded : Bool
deriving DecidableEq

namespace Handle

variable {m : Type → Type} [Monad m] [Machine m]

/-- Let go of a scope. If its end has not been reported, it is reported as dropped. -/
def release (h : Handle) : m Unit :=
  if h.isEnded then pure () else closeScope h.scope .dropped

/-- End a scope, and let go of it. Ending marks it before its end is reported. -/
def finish (h : Handle) : Log.Ending → m Unit
  | .dropped => h.release
  | ending => do
    let h := { h with isEnded := true }
    closeScope h.scope ending
    h.release

/-- A scope that is ended for the first time is reported once, and the mark spares it the second
report. -/
theorem finish_eq [LawfulMonad m] {h : Handle} (hfresh : h.isEnded = false)
    (ending : Log.Ending) : (h.finish ending : m Unit) = closeScope h.scope ending := by
  cases ending with
  | complete extra => simp [finish, release]
  | fail reason => simp [finish, release]
  | dropped => simp [finish, release, hfresh]

end Handle

end Machine

namespace Log

/-- What a run does with scopes and the log. Scopes are numbered in the order of their opening. -/
inductive Action where
  /-- A scope is opened. -/
  | opens (name : String) (fields : List (String × String))
  /-- The scope of this number is ended. -/
  | ends (number : Nat) (ending : Ending)
  /-- Something else is reported. -/
  | tells (entry : Entry)
  /-- The least severity that is written is changed. -/
  | sets (severity : Severity)
deriving DecidableEq

/-- The entry that tells how a scope of some name and values ended. -/
inductive TellsEnd (name : String) (fields : List (String × String)) : Ending → Entry → Prop
  /-- A complete scope is told with its values, more values and the time it took. -/
  | complete (extra : List (String × String)) (elapsed : Nat) :
    TellsEnd name fields (.complete extra)
      ⟨.info, name ++ "_COMPLETE", fields ++ extra ++ [("elapsed_ms", toString elapsed)]⟩
  /-- A scope that failed is told with its values and the reason. -/
  | fail (reason : String) :
    TellsEnd name fields (.fail reason)
      ⟨.error, name ++ "_FAILED", fields ++ [("reason", reason)]⟩
  /-- A dropped scope is told with a reason alone. -/
  | dropped :
    TellsEnd name fields .dropped
      ⟨.warn, name ++ "_INCOMPLETE", [("reason", "scope dropped without completion")]⟩

theorem Scope.tellsEnd_closing (s : Scope) (now : Nat) (ending : Ending) :
    TellsEnd s.name s.fields ending (s.closing now ending) := by
  cases ending with
  | complete extra => exact .complete extra _
  | fail reason => exact .fail reason
  | dropped => exact .dropped

/-- Unless a scope was dropped, its end is told with the values it was opened with. -/
theorem TellsEnd.fields_prefix {name : String} {fields : List (String × String)} {ending : Ending}
    {e : Entry} (h : TellsEnd name fields ending e) (hd : ending ≠ .dropped) :
    fields <+: e.fields := by
  cases h with
  | complete extra elapsed =>
    rw [List.append_assoc]
    exact List.prefix_append _ _
  | fail reason => exact List.prefix_append _ _
  | dropped => exact absurd rfl hd

namespace Action

/-- The scope that is opened, if one is. -/
def opening? : Action → Option (String × List (String × String))
  | .opens name fields => some (name, fields)
  | _ => none

/-- How the scope of a number is ended, if it is. -/
def ending? (number : Nat) : Action → Option Ending
  | .ends n ending => if n = number then some ending else none
  | _ => none

/-- Entries of this severity are still written. -/
def Admits (severity : Severity) : Action → Prop
  | .sets least => least.admits severity
  | _ => True

end Action

end Log

/-- How far a run has come. -/
structure Stage where
  /-- The scopes opened so far that are still held, each in the place of its number. -/
  held : List (Option Machine.Handle)
  /-- The world. -/
  world : World

namespace Stage

open Log

/-- What an action leads to. Only a scope that is held can be ended, and it is held no more. -/
def next (s : Stage) : Action → Option Stage
  | .opens name fields =>
    let (scope, world) := (Machine.openScope name fields : Simulated Scope) s.world
    some ⟨s.held ++ [some ⟨scope, false⟩], world⟩
  | .ends number ending =>
    match s.held[number]? with
    | some (some h) =>
      some ⟨s.held.set number none, ((h.finish ending : Simulated Unit) s.world).2⟩
    | _ => none
  | .tells entry => some { s with world := ((Machine.log entry : Simulated Unit) s.world).2 }
  | .sets severity =>
    some { s with world := ((Machine.setThreshold severity : Simulated Unit) s.world).2 }

/-- Where a run ends that begins at a stage. -/
def run (s : Stage) : List Action → Option Stage
  | [] => some s
  | action :: rest => (s.next action).bind (·.run rest)

/-- The number of the scope that an action is about, if it is about one. -/
def number? (s : Stage) : Action → Option Nat
  | .opens _ _ => some s.held.length
  | .ends number _ => some number
  | _ => none

/-- The entries that a run adds to the log, each with the number of the scope whose opening or
ending adds it. -/
def told (s : Stage) : List Action → List (Option Nat × Entry)
  | [] => []
  | action :: rest =>
    match s.next action with
    | none => []
    | some s' =>
      ((s'.world.entries.drop s.world.entries.length).map (s.number? action, ·)) ++ s'.told rest

/-- The entries that the opening and the ending of a scope add to the log. -/
def linesOf (s : Stage) (number : Nat) (actions : List Action) : List Entry :=
  ((s.told actions).filter fun line => line.1 = some number).map Prod.snd

/-- The scopes held have not been ended, and the log takes what is normal. -/
structure Ready (s : Stage) : Prop where
  /-- No scope that is held has been ended. -/
  fresh : ∀ h, some h ∈ s.held → h.isEnded = false
  /-- Entries about normal progress are written. -/
  low : s.world.threshold.admits .info

/-- What an action does: which scopes are held afterwards, and what is added to the log. -/
inductive Does (s : Stage) : Action → Stage → List Entry → Prop
  /-- A scope is held under the next number, and its beginning is told. -/
  | opens {name : String} {fields : List (String × String)} {begun : Nat} {s' : Stage}
    (hheld : s'.held = s.held ++ [some ⟨⟨name, fields, begun⟩, false⟩]) :
    Does s (.opens name fields) s' [⟨.info, name ++ "_BEGIN", fields⟩]
  /-- A scope is held no more, and its end is told. -/
  | ends {number : Nat} {ending : Ending} {h : Machine.Handle} {e : Entry} {s' : Stage}
    (hnumber : s.held[number]? = some (some h))
    (hheld : s'.held = s.held.set number none)
    (he : TellsEnd h.scope.name h.scope.fields ending e) : Does s (.ends number ending) s' [e]
  /-- The same scopes are held. -/
  | tells {entry : Entry} {s' : Stage} {more : List Entry} (hheld : s'.held = s.held) :
    Does s (.tells entry) s' more
  /-- The same scopes are held, and nothing is told. -/
  | sets {severity : Severity} {s' : Stage} (hheld : s'.held = s.held) :
    Does s (.sets severity) s' []

end Stage

section Effects

open Log

theorem World.entries_logged (w : World) (es : List Entry) :
    (w.logged es).entries = w.entries ++ es.filter fun e => w.threshold.admits e.severity := by
  simp [World.entries, World.logged, List.filterMap_append, List.filterMap_map]

theorem World.entries_logged_of_admits {w : World} {e : Entry}
    (h : w.threshold.admits e.severity) : (w.logged [e]).entries = w.entries ++ [e] := by
  rw [entries_logged, List.filter_singleton, h, cond_true]

/-- Where the log takes what is normal, it takes warnings and failures too. -/
theorem Log.Severity.admits_of_info {least severity : Severity} (h : least.admits .info)
    (hs : severity ≠ .trace) : least.admits severity := by
  cases least <;> cases severity <;> simp_all [admits, rank]

/-- Opening a scope tells its beginning and reads the clock. -/
theorem Machine.run_openScope (name : String) (fields : List (String × String)) (w : World) :
    (openScope name fields : Simulated Scope) w =
      (⟨name, fields, w.readings.headD 0⟩,
        { w.logged [⟨.info, name ++ "_BEGIN", fields⟩] with readings := w.readings.tail }) := by
  let reads (w : World) : Scope × World :=
    (⟨name, fields, w.readings.headD 0⟩, { w with readings := w.readings.tail })
  show reads ((log (Scope.opening ⟨name, fields, 0⟩) : Simulated Unit) w).2 = _
  rw [run_log]
  rfl

/-- Closing a scope reads the clock and tells its end. -/
theorem Machine.run_closeScope (scope : Scope) (ending : Ending) (w : World) :
    (closeScope scope ending : Simulated Unit) w =
      ((), { w with readings := w.readings.tail }.logged
        [scope.closing (w.readings.headD 0) ending]) :=
  run_log (scope.closing (w.readings.headD 0) ending) { w with readings := w.readings.tail }

theorem Log.Scope.severity_closing_ne (scope : Scope) (now : Nat) (ending : Ending) :
    (scope.closing now ending).severity ≠ .trace := by
  cases ending <;> simp [closing]

end Effects

namespace Stage

open Log

variable {s s' t : Stage} {action : Action} {actions : List Action}

/-- What an action does from a stage that is ready. -/
theorem Ready.next (hs : s.Ready) (ha : action.Admits .info) (h : s.next action = some s') :
    s'.Ready ∧ ∃ more, s.Does action s' more ∧ s'.world.entries = s.world.entries ++ more := by
  cases action with
  | opens name fields =>
    rw [Stage.next, Machine.run_openScope] at h
    obtain rfl := Option.some.inj h
    refine ⟨⟨fun g hg => ?_, hs.low⟩, _, .opens rfl, ?_⟩
    · rcases List.mem_append.mp hg with hg | hg
      · exact hs.fresh g hg
      · cases List.mem_singleton.mp hg
        rfl
    · exact World.entries_logged_of_admits (w := s.world) hs.low
  | ends number ending =>
    rw [Stage.next] at h
    split at h
    · rename_i g hg
      obtain rfl := Option.some.inj h
      have hfresh : g.isEnded = false := hs.fresh g (List.mem_of_getElem? hg)
      rw [Machine.Handle.finish_eq hfresh, Machine.run_closeScope]
      refine ⟨⟨fun g' hg' => ?_, hs.low⟩, _,
        .ends hg rfl (g.scope.tellsEnd_closing (s.world.readings.headD 0) ending), ?_⟩
      · rcases List.mem_or_eq_of_mem_set hg' with hg' | hg'
        · exact hs.fresh g' hg'
        · cases hg'
      · exact World.entries_logged_of_admits (w := { s.world with readings := _ })
          (Severity.admits_of_info hs.low (g.scope.severity_closing_ne _ _))
    · cases h
  | tells entry =>
    obtain rfl := Option.some.inj h
    rw [Machine.run_log]
    exact ⟨⟨hs.fresh, hs.low⟩, _, .tells rfl, World.entries_logged _ _⟩
  | sets severity =>
    obtain rfl := Option.some.inj h
    exact ⟨⟨hs.fresh, ha⟩, [], .sets rfl, (List.append_nil _).symm⟩

/-- The run goes on from the stage that the first action leads to, and what it tells comes behind
what that action tells. -/
theorem told_cons {more : List Entry} (h : s.next action = some s')
    (hmore : s'.world.entries = s.world.entries ++ more) :
    s.told (action :: actions) = more.map (s.number? action, ·) ++ s'.told actions := by
  rw [told, h]
  simp only [hmore, List.drop_left]

/-- The scope of a number is told in what the first action adds, if it is about that scope, and in
what the rest adds. -/
theorem linesOf_cons {number : Nat} {more : List Entry} (h : s.next action = some s')
    (hmore : s'.world.entries = s.world.entries ++ more) :
    s.linesOf number (action :: actions) =
      (if s.number? action = some number then more else []) ++ s'.linesOf number actions := by
  rw [linesOf, told_cons h hmore, List.filter_append, List.map_append, List.filter_map]
  congr 1
  split
  · rename_i heq
    simp [Function.comp_def, heq]
  · rename_i hne
    simp [Function.comp_def, hne]

/-- Actions about other scopes leave a scope as it is. -/
theorem Does.getElem?_held {more : List Entry} {number : Nat} (h : s.Does action s' more)
    (hn : s.number? action ≠ some number) (hlt : number < s.held.length) :
    s'.held[number]? = s.held[number]? := by
  cases h with
  | opens hheld => rw [hheld, List.getElem?_append_left hlt]
  | ends _ hheld _ => rw [hheld, List.getElem?_set_ne fun heq => hn (congrArg some heq)]
  | tells hheld => rw [hheld]
  | sets hheld => rw [hheld]

/-- An action that opens no scope is about an earlier one, if about any, and no more are held. -/
theorem Does.of_opening?_eq_none {more : List Entry} (h : s.Does action s' more)
    (hn : action.opening? = none) :
    s'.held.length = s.held.length ∧ ∀ k, s.number? action ≠ some (s.held.length + k) := by
  cases h with
  | opens hheld => cases hn
  | ends hnumber hheld _ =>
    have hlt := (List.getElem?_eq_some_iff.mp hnumber).1
    refine ⟨by rw [hheld, List.length_set], fun k heq => ?_⟩
    have heq := Option.some.inj heq
    omega
  | tells hheld => exact ⟨congrArg List.length hheld, fun _ => nofun⟩
  | sets hheld => exact ⟨congrArg List.length hheld, fun _ => nofun⟩

/-- Only an action about a scope ends it. -/
theorem ending?_eq_none {number : Nat} (hn : s.number? action ≠ some number) :
    action.ending? number = none := by
  cases action with
  | ends n ending => exact if_neg fun heq => hn (congrArg some heq)
  | opens _ _ => rfl
  | tells _ => rfl
  | sets _ => rfl

section Run

/-- A run begins with an action that leads somewhere. -/
theorem run_cons_eq_some_iff :
    s.run (action :: actions) = some t ↔ ∃ s', s.next action = some s' ∧ s'.run actions = some t :=
  Option.bind_eq_some_iff

/-- All that is added to the log on the way is told. -/
theorem Ready.entries_run (hs : s.Ready) (ha : ∀ a ∈ actions, a.Admits .info)
    (h : s.run actions = some t) :
    t.world.entries = s.world.entries ++ (s.told actions).map Prod.snd := by
  induction actions generalizing s with
  | nil =>
    obtain rfl := Option.some.inj h
    exact (List.append_nil _).symm
  | cons action rest ih =>
    obtain ⟨s', hnext, hrun⟩ := run_cons_eq_some_iff.mp h
    obtain ⟨ha, hrest⟩ := List.forall_mem_cons.mp ha
    obtain ⟨hs', more, -, hmore⟩ := hs.next ha hnext
    rw [ih hs' hrest hrun, hmore, told_cons hnext hmore, List.map_append, List.map_map,
      List.append_assoc]
    simp [Function.comp_def]

variable {number : Nat}

/-- A scope that is held no more is not told or ended again. -/
theorem Ready.linesOf_of_gone (hs : s.Ready) (ha : ∀ a ∈ actions, a.Admits .info)
    (h : s.run actions = some t) (hgone : s.held[number]? = some none) :
    s.linesOf number actions = [] ∧ actions.filterMap (Action.ending? number) = [] := by
  induction actions generalizing s with
  | nil => exact ⟨rfl, rfl⟩
  | cons action rest ih =>
    obtain ⟨s', hnext, hrun⟩ := run_cons_eq_some_iff.mp h
    obtain ⟨ha, hrest⟩ := List.forall_mem_cons.mp ha
    obtain ⟨hs', more, hdoes, hmore⟩ := hs.next ha hnext
    have hlt : number < s.held.length := (List.getElem?_eq_some_iff.mp hgone).1
    have hother : s.number? action ≠ some number := by
      intro habout
      cases hdoes with
      | opens _ => exact Nat.lt_irrefl _ (Option.some.inj habout ▸ hlt)
      | ends hnumber _ _ =>
        obtain rfl := Option.some.inj habout
        simp [hgone] at hnumber
      | tells _ => cases habout
      | sets _ => cases habout
    obtain ⟨hlines, hendings⟩ := ih hs' hrest hrun ((hdoes.getElem?_held hother hlt).trans hgone)
    rw [linesOf_cons hnext hmore, if_neg hother, hlines,
      List.filterMap_cons_none (ending?_eq_none hother), hendings]
    exact ⟨rfl, rfl⟩

/-- A scope that is held and let go of before the run is over is ended once, and that is told
once. -/
theorem Ready.linesOf_of_held (hs : s.Ready) (ha : ∀ a ∈ actions, a.Admits .info)
    (h : s.run actions = some t) (hends : ∀ g ∈ t.held, g = none) {g : Machine.Handle}
    (hheld : s.held[number]? = some (some g)) :
    ∃ ending last, actions.filterMap (Action.ending? number) = [ending] ∧
      TellsEnd g.scope.name g.scope.fields ending last ∧ s.linesOf number actions = [last] := by
  induction actions generalizing s with
  | nil =>
    obtain rfl := Option.some.inj h
    cases hends _ (List.mem_of_getElem? hheld)
  | cons action rest ih =>
    obtain ⟨s', hnext, hrun⟩ := run_cons_eq_some_iff.mp h
    obtain ⟨ha, hrest⟩ := List.forall_mem_cons.mp ha
    obtain ⟨hs', more, hdoes, hmore⟩ := hs.next ha hnext
    have hlt : number < s.held.length := (List.getElem?_eq_some_iff.mp hheld).1
    -- the scope is held until an action is about it, and gone from then on
    by_cases habout : s.number? action = some number
    · rw [linesOf_cons hnext hmore, if_pos habout]
      cases hdoes with
      | opens _ => exact absurd (Option.some.inj habout ▸ hlt) (Nat.lt_irrefl _)
      | @ends n ending g' last _ hnumber hheld' htells =>
        obtain rfl := Option.some.inj habout
        obtain rfl : g' = g := by simpa [hheld] using hnumber.symm
        have hgone : s'.held[n]? = some none := by
          rw [hheld', List.getElem?_set_self hlt]
        obtain ⟨hlines, hendings⟩ := hs'.linesOf_of_gone hrest hrun hgone
        refine ⟨ending, last, ?_, htells, ?_⟩
        · have hending : (Action.ends n ending).ending? n = some ending := if_pos rfl
          rw [List.filterMap_cons_some hending, hendings]
        · rw [hlines, List.append_nil]
      | tells _ => cases habout
      | sets _ => cases habout
    · obtain ⟨ending, last, hendings, htells, hlines⟩ := ih hs' hrest hrun
        ((hdoes.getElem?_held habout hlt).trans hheld)
      refine ⟨ending, last, ?_, htells, ?_⟩
      · rw [List.filterMap_cons_none (ending?_eq_none habout), hendings]
      · rw [linesOf_cons hnext hmore, if_neg habout, hlines, List.nil_append]

/-- A scope that is opened and let go of before the run is over is ended once, and its beginning and
its end are told once. -/
theorem Ready.linesOf_of_opening (hs : s.Ready) (ha : ∀ a ∈ actions, a.Admits .info)
    (h : s.run actions = some t) (hends : ∀ g ∈ t.held, g = none) {k : Nat} {name : String}
    {fields : List (String × String)}
    (hopening : (actions.filterMap Action.opening?)[k]? = some (name, fields)) :
    ∃ ending last, actions.filterMap (Action.ending? (s.held.length + k)) = [ending] ∧
      TellsEnd name fields ending last ∧
      s.linesOf (s.held.length + k) actions = [⟨.info, name ++ "_BEGIN", fields⟩, last] := by
  induction actions generalizing s k with
  | nil => cases hopening
  | cons action rest ih =>
    obtain ⟨s', hnext, hrun⟩ := run_cons_eq_some_iff.mp h
    obtain ⟨ha, hrest⟩ := List.forall_mem_cons.mp ha
    obtain ⟨hs', more, hdoes, hmore⟩ := hs.next ha hnext
    cases hop : action.opening? with
    | none =>
      obtain ⟨hlen, hother⟩ := hdoes.of_opening?_eq_none hop
      rw [List.filterMap_cons_none hop] at hopening
      obtain ⟨ending, last, hendings, htells, hlines⟩ := ih hs' hrest hrun hopening
      rw [hlen] at hendings hlines
      refine ⟨ending, last, ?_, htells, ?_⟩
      · rw [List.filterMap_cons_none (ending?_eq_none (hother k)), hendings]
      · rw [linesOf_cons hnext hmore, if_neg (hother k), hlines, List.nil_append]
    | some opened =>
      rw [List.filterMap_cons_some hop] at hopening
      cases hdoes with
      | @opens name' fields' begun _ hheld =>
        -- the scope asked about is the one that is opened here, or one that is opened later
        cases k with
        | zero =>
          obtain rfl : opened = (name, fields) := Option.some.inj hopening
          obtain ⟨rfl, rfl⟩ := Prod.mk.inj (Option.some.inj hop)
          have hnew : s'.held[s.held.length]? = some (some ⟨⟨name', fields', begun⟩, false⟩) := by
            rw [hheld, List.getElem?_concat_length]
          obtain ⟨ending, last, hendings, htells, hlines⟩ :=
            hs'.linesOf_of_held hrest hrun hends hnew
          refine ⟨ending, last, hendings, htells, ?_⟩
          have habout : s.number? (.opens name' fields') = some s.held.length := rfl
          rw [Nat.add_zero, linesOf_cons hnext hmore, if_pos habout, hlines]
          rfl
        | succ k =>
          have hlen : s'.held.length + k = s.held.length + (k + 1) := by
            rw [hheld, List.length_append, List.length_singleton]
            omega
          obtain ⟨ending, last, hendings, htells, hlines⟩ := ih hs' hrest hrun hopening
          rw [hlen] at hendings hlines
          refine ⟨ending, last, hendings, htells, ?_⟩
          have hother : s.number? (.opens name' fields') ≠ some (s.held.length + (k + 1)) := by
            intro heq
            have heq := Option.some.inj heq
            omega
          rw [linesOf_cons hnext hmore, if_neg hother, hlines, List.nil_append]
      | ends _ _ _ => cases hop
      | tells _ => cases hop
      | sets _ => cases hop

end Run

/-- Where a run that begins without scopes lets go of every scope it opens, in any order, and the
log takes what is normal throughout, what is added to the log is told. Of each scope two entries
are, its beginning and the end it came to, and both have the values it was opened with, unless it
was dropped. -/
theorem scopes_told_twice {actions : List Action} {w : World} {t : Stage}
    (hlow : w.threshold.admits .info) (ha : ∀ a ∈ actions, a.Admits .info)
    (hrun : run ⟨[], w⟩ actions = some t) (hends : ∀ g ∈ t.held, g = none) :
    t.world.entries = w.entries ++ (told ⟨[], w⟩ actions).map Prod.snd ∧
      ∀ k name fields, (actions.filterMap Action.opening?)[k]? = some (name, fields) →
        ∃ ending last, actions.filterMap (Action.ending? k) = [ending] ∧
          linesOf ⟨[], w⟩ k actions = [⟨.info, name ++ "_BEGIN", fields⟩, last] ∧
          TellsEnd name fields ending last ∧ (ending ≠ .dropped → fields <+: last.fields) := by
  have hready : Ready ⟨[], w⟩ := ⟨fun _ => nofun, hlow⟩
  refine ⟨hready.entries_run ha hrun, fun k name fields hopening => ?_⟩
  obtain ⟨ending, last, hendings, htells, hlines⟩ :=
    hready.linesOf_of_opening ha hrun hends hopening
  have hzero : (Stage.held ⟨[], w⟩).length + k = k := Nat.zero_add k
  rw [hzero] at hendings hlines
  exact ⟨ending, last, hendings, hlines, htells, htells.fields_prefix⟩

/-- A stage before anything has been done, without files. -/
def idle : Stage := ⟨[], ⟨⟨[]⟩, [], .info, [3, 5, 8, 13], [], ""⟩⟩

/-- Two scopes of one name are ended in the order of their opening, and a third is dropped before
the second is ended. -/
def interleaved : List Action :=
  [.opens "S" [("output", "m")], .opens "S" [("reason", "r")], .sets .trace,
    .ends 0 (.complete [("operations", "3")]), .opens "T" [], .tells ⟨.trace, "E", []⟩,
    .ends 2 .dropped, .ends 1 (.fail "full")]

theorem scopes_told_twice_interleaved :
    ∃ t, run idle interleaved = some t ∧ idle.world.threshold.admits .info ∧
      (∀ a ∈ interleaved, a.Admits .info) ∧ (∀ g ∈ t.held, g = none) ∧
      t.world.entries = idle.world.entries ++ (told idle interleaved).map Prod.snd ∧
      ∀ k name fields, (interleaved.filterMap Action.opening?)[k]? = some (name, fields) →
        ∃ ending last, interleaved.filterMap (Action.ending? k) = [ending] ∧
          linesOf idle k interleaved = [⟨.info, name ++ "_BEGIN", fields⟩, last] ∧
          TellsEnd name fields ending last ∧ (ending ≠ .dropped → fields <+: last.fields) := by
  have hlow : idle.world.threshold.admits .info := rfl
  have ha : ∀ a ∈ interleaved, a.Admits .info := by
    simp [interleaved, Action.Admits, Severity.admits, Severity.rank]
  have hends : ∀ g ∈ [none, none, none], g = (none : Option Machine.Handle) := by simp
  exact ⟨_, rfl, hlow, ha, hends, scopes_told_twice hlow ha rfl hends⟩

/-- The end of a dropped scope is told without the values it was opened with. -/
theorem dropped_told_without_fields :
    let actions := [.opens "S" [("output", "m")], .ends 0 .dropped]
    ∃ t, run idle actions = some t ∧ t.held = [none] ∧ idle.world.threshold.admits .info ∧
      linesOf idle 0 actions = [⟨.info, "S_BEGIN", [("output", "m")]⟩,
        ⟨.warn, "S_INCOMPLETE", [("reason", "scope dropped without completion")]⟩] ∧
      ∃ e ∈ linesOf idle 0 actions, ("output", "m") ∉ e.fields := by
  intro actions
  have hlines : linesOf idle 0 actions = [⟨.info, "S_BEGIN", [("output", "m")]⟩,
      ⟨.warn, "S_INCOMPLETE", [("reason", "scope dropped without completion")]⟩] := rfl
  refine ⟨_, rfl, rfl, rfl, hlines, ?_⟩
  rw [hlines]
  exact ⟨_, List.mem_cons_of_mem _ List.mem_cons_self, by decide⟩

end Stage

end Safelist
