import Safelist.Proofs.Document.Pacing

/-!
# What stands inside a head is read to its end

Types, values, arguments, directives and declarations of variables are read by routines that
end, each from where the grammar stands before the phrase to where it stands behind it.
-/

namespace Safelist

open Lexical

namespace Grammar

theorem Holder.attach_attachAll (holder : Holder) (as : List Argument) (a : Argument) :
    (holder.attachAll as).attach a = holder.attachAll (as ++ [a]) := by
  cases holder <;> simp [attachAll, attach]

theorem Holder.isConstant_attachAll (holder : Holder) (as : List Argument) :
    (holder.attachAll as).isConstant = holder.isConstant := by
  cases holder <;> rfl

theorem Site.attach_attachAll (site : Site) (dirs : List Directive) (d : Directive) :
    (site.attachAll dirs).attach d = site.attachAll (dirs ++ [d]) := by
  cases site <;> simp [attachAll, attach]

theorem Site.isConstant_attachAll (site : Site) (dirs : List Directive) :
    (site.attachAll dirs).isConstant = site.isConstant := by
  cases site <;> rfl

/-- Where a value stands, nothing in particular is asked for. -/
theorem Focus.error_value {slot : Slot} {found : Option Lexeme}
    (h : found ≠ some (.mark .dollar)) (p : Position) :
    (Focus.value slot).error found p = .malformed p (.unexpected found) := by
  have hrefuses : ((Focus.value slot).refusesVariable && found = some (.mark .dollar)) = false := by
    simp [h]
  have hproblem : (Focus.value slot).problem found = .unexpected found := by
    unfold Focus.problem
    rw [hrefuses]
    rfl
  exact congrArg (ReadError.malformed p) hproblem

/-- Where a value stands that may not be a variable, that is the problem with one. -/
theorem Focus.error_value_dollar {slot : Slot} (h : slot.isConstant = true) (p : Position) :
    (Focus.value slot).error (some (.mark .dollar)) p = .malformed p .variableInConstant := by
  have hproblem : (Focus.value slot).problem (some (.mark .dollar)) = .variableInConstant :=
    if_pos (by simpa [Focus.refusesVariable] using h)
  exact congrArg (ReadError.malformed p) hproblem

end Grammar

namespace Descent

open Grammar

/-- Induction towards an upper end. -/
theorem forward_induction (n : Nat) {P : Nat → Prop} (h : ∀ i, (∀ j, i < j → j ≤ n → P j) → P i)
    (i : Nat) : P i := by
  induction hk : n - i using Nat.strong_induction_on generalizing i with
  | _ k ih => exact h i fun j hij hjn => ih (n - j) (by omega) j rfl

variable {ts : TokenStream} {ds : List Definition} {i : Nat} {calls : List Call}

section Types

variable {op : Operation} {name : String} {depth : Nat}

/-- The grammar stands behind a type, and does not find the mark that it could still bear. -/
def BehindType (ts : TokenStream) (ds : List Definition) (op : Operation) (name : String)
    (depth : Nat) (t : TypeRef) (i : Nat) : Prop :=
  Stands ts i ⟨ds, .typeEnd op name depth t t.isNonNull⟩ ∧
    (t.isNonNull = false → ts.lexeme? i ≠ some (.mark .bang))

theorem ends_marked {t : TypeRef} (ht : t.isNonNull = false)
    (hs : Stands ts i ⟨ds, .typeEnd op name depth t false⟩) :
    Ends ts (ts.marked t) ⟨i, calls⟩
      (Kept calls fun u j => i ≤ j ∧ BehindType ts ds op name depth u j) := by
  refine Ends.skip_bind (fun hl => ?_) fun hl => ?_
  · have hmarked := hs.to hl (g := .typeEnd op name depth (.nonNull t) true) rfl
    exact Ends.pure ⟨rfl, Nat.le_succ i, hmarked, nofun⟩
  · exact Ends.pure ⟨rfl, le_rfl, ht ▸ hs, fun _ => hl⟩

/-- A type is read to its end, inside any number of brackets. -/
theorem ends_typeRef (ha : Admitted calls .type i)
    (hs : Stands ts i ⟨ds, .typeStart op name depth⟩) :
    Ends ts ts.typeRef ⟨i, calls⟩
      (Kept calls fun t j => i < j ∧ BehindType ts ds op name depth t j) := by
  induction i using forward_induction ts.tokens.length generalizing calls depth with
  | h i ih =>
    rw [TokenStream.typeRef]
    refine Ends.within ha (Ends.skip_bind (fun hl => ?_) fun hl => ?_)
    · have hitem := hs.to hl (g := .typeStart op name (depth + 1)) rfl
      refine Ends.kept_bind (Ends.of_fits fun hfit =>
        ih (i + 1) (Nat.lt_succ_self i) hfit.cursor_le (.of_lt (Nat.lt_succ_self i) _) hitem) ?_
      rintro t j ⟨hij, htype, hbang⟩
      refine Ends.expect_bind htype (next_closeBracket ..) (misses_typeEnd op name depth t hbang) ?_
      intro hclosed
      refine Ends.kept_around (ends_marked rfl hclosed) ?_
      rintro u k ⟨hjk, hu⟩
      exact ⟨by omega, hu⟩
    · refine Ends.name_bind hs (g := fun t => .typeEnd op name depth (.named t) false)
        (fun _ _ => rfl) (fun hname => misses_typeStart op name depth hname hl) ?_
      intro t _ hnamed
      refine Ends.kept_around (ends_marked rfl hnamed) ?_
      rintro u k ⟨hjk, hu⟩
      exact ⟨by omega, hu⟩

end Types

section Values

/-- A value is read to its end, into any slot. -/
def ValueEnds (ts : TokenStream) (ds : List Definition) (i : Nat) : Prop :=
  ∀ (slot : Slot) (calls : List Call), Admitted calls .value i → Stands ts i ⟨ds, .value slot⟩ →
    Ends ts (ts.value slot.isConstant) ⟨i, calls⟩
      (Kept calls fun v j => i < j ∧ Stands ts j ⟨ds, slot.fill v⟩)

variable {outer : Slot} {c : Call} {first : Nat}

/-- The items of a list are read to its end, if each of them is. -/
theorem ends_listItems (hv : ∀ j, first ≤ j → ValueEnds ts ds j) {items : List Value}
    (hi : first ≤ i) (hc : c.AtTurn .value i) (hentry : c.entry < i)
    (hs : Stands ts i ⟨ds, .list outer items⟩) :
    Ends ts (ts.listItems outer.isConstant items) ⟨i, c :: calls⟩
      (Around calls fun vs j => i < j ∧ Stands ts j ⟨ds, outer.fill (.list vs)⟩) := by
  induction i using forward_induction ts.tokens.length generalizing c items with
  | h i ih =>
    rw [TokenStream.listItems]
    refine Ends.turn_bind hc (Ends.skip_bind (fun hl => ?_) fun hl => ?_)
    · exact Ends.pure ⟨rfl, Nat.lt_succ_self i, hs.to hl rfl⟩
    · have hitem := hs.alike (alike_list outer items hl)
      refine Ends.peek_bind ?_
      by_cases hend : ts.lexeme? i = none
      · rw [if_pos hend]
        refine Ends.unexpected ?_
        rw [hitem.error (by simp [hend]) fun _ => rfl]
        exact congrArg Except.error (Focus.error_value (by simp [hend]) _)
      · rw [if_neg hend]
        -- the item may begin where the turn does, behind the bracket that the call was entered at
        refine Ends.kept_bind
          (hv i hi (.item outer items) _ (.of_lt (c := c.turned i) hentry _) hitem) ?_
        rintro v j ⟨hij, hbehind⟩
        exact Ends.of_fits fun hfit => Ends.around_lt hij
          (ih j hij hfit.cursor_le (hi.trans hij.le) (hc.turned hij) (hentry.trans hij) hbehind)

/-- The members of an input object are read to its end, if the value of each is. -/
theorem ends_objectMembers (hv : ∀ j, first ≤ j → ValueEnds ts ds j)
    {members : List (String × Value)} (hi : first ≤ i) (hc : c.AtTurn .value i)
    (hs : Stands ts i ⟨ds, .object outer members⟩) :
    Ends ts (ts.objectMembers outer.isConstant members) ⟨i, c :: calls⟩
      (Around calls fun ms j => i < j ∧ Stands ts j ⟨ds, outer.fill (.object ms)⟩) := by
  induction i using forward_induction ts.tokens.length generalizing c members with
  | h i ih =>
    rw [TokenStream.objectMembers]
    refine Ends.turn_bind hc (Ends.skip_bind (fun hl => ?_) fun hl => ?_)
    · exact Ends.pure ⟨rfl, Nat.lt_succ_self i, hs.to hl rfl⟩
    · refine Ends.name_bind hs (g := .memberName outer members) (fun _ _ => rfl)
        (fun hname => misses_member outer members hname hl) ?_
      intro name _ hname
      refine Ends.colon_bind hname rfl ?_
      intro hcolon
      refine Ends.kept_bind (hv (i + 1 + 1) (by omega) (.member outer members name) _
        (hc.admits (by omega) _) hcolon) ?_
      rintro v j ⟨hij, hbehind⟩
      have hij : i < j := by omega
      exact Ends.of_fits fun hfit => Ends.around_lt hij
        (ih j hij hfit.cursor_le (hi.trans hij.le) (hc.turned hij) hbehind)

/-- What begins no value ends its reading. -/
theorem error_of_value {slot : Slot} (hs : Stands ts i ⟨ds, .value slot⟩)
    (hn : ∀ l, ts.lexeme? i = some l → slot.next l = none)
    (hl : ts.lexeme? i ≠ some (.mark .dollar)) :
    Document.ofTokens ts =
      .error (.malformed (ts.positionAt i) (.unexpected (ts.lexeme? i))) := by
  rw [hs.error hn fun _ => rfl]
  exact congrArg Except.error (Focus.error_value hl _)

/-- A value is read to its end. -/
theorem ends_value (i : Nat) : ValueEnds ts ds i := by
  induction i using forward_induction ts.tokens.length with
  | h i ih =>
    intro slot calls ha hs
    rw [TokenStream.value]
    refine Ends.within ha (Ends.position_bind (Ends.peek_bind ?_))
    -- what stands inside begins behind the first mark, where the hypothesis holds
    have hinner : ∀ j, i + 1 ≤ j → ValueEnds ts ds j := fun j hj slot calls ha hs =>
      Ends.of_fits fun hfit => ih j hj hfit.cursor_le slot calls ha hs
    cases hl : ts.lexeme? i with
    | none =>
      refine Ends.advance_bind_of_none hl (Ends.throw ?_)
      exact hl ▸ error_of_value hs (by simp [hl]) (by simp [hl])
    | some l =>
      have hwhole : ∀ v, slot.next l = some (.to (slot.fill v)) →
          i < i + 1 ∧ Stands ts (i + 1) ⟨ds, slot.fill v⟩ :=
        fun v hn => ⟨Nat.lt_succ_self i, hs.to hl hn⟩
      cases l with
      | int text => exact Ends.advance_bind hl (Ends.pure ⟨rfl, hwhole _ rfl⟩)
      | float text => exact Ends.advance_bind hl (Ends.pure ⟨rfl, hwhole _ rfl⟩)
      | string text => exact Ends.advance_bind hl (Ends.pure ⟨rfl, hwhole _ rfl⟩)
      | block text => exact Ends.advance_bind hl (Ends.pure ⟨rfl, hwhole _ rfl⟩)
      | name name => exact Ends.advance_bind hl (Ends.pure ⟨rfl, hwhole _ rfl⟩)
      | mark m =>
        cases m with
        | openBracket =>
          refine Ends.advance_bind hl (Ends.bind (ends_listItems hinner le_rfl
            (.first (Nat.le_succ i)) (Nat.lt_succ_self i) (hs.to hl rfl)) ?_)
          rintro vs n ⟨hcalls, hlt, hbehind⟩
          exact Ends.pure ⟨hcalls, (Nat.lt_succ_self i).trans hlt, hbehind⟩
        | openBrace =>
          refine Ends.advance_bind hl (Ends.bind (ends_objectMembers hinner le_rfl
            (.first (Nat.le_succ i)) (hs.to hl rfl)) ?_)
          rintro ms n ⟨hcalls, hlt, hbehind⟩
          exact Ends.pure ⟨hcalls, (Nat.lt_succ_self i).trans hlt, hbehind⟩
        | dollar =>
          by_cases hc : slot.isConstant = true
          · refine (if_pos hc).symm ▸ Ends.throw ?_
            rw [hs.error (by simp [hl, Focus.next, Slot.next, hc]) fun _ => rfl, hl]
            exact congrArg Except.error (Focus.error_value_dollar hc _)
          · have hnext : slot.next (.mark .dollar) = some (.to (.variableUse slot)) := if_neg hc
            refine (if_neg hc).symm ▸ Ends.advance_bind hl ?_
            refine Ends.onlyName_bind (hs.to hl hnext) rfl fun name hname => ?_
            exact Ends.pure ⟨rfl, (Nat.lt_succ_self i).trans (Nat.lt_succ_self _), hname⟩
        | _ =>
          refine Ends.advance_bind hl (Ends.throw ?_)
          refine hl ▸ error_of_value hs (fun l hl' => ?_) (by simp [hl])
          obtain rfl := Option.some.inj (hl.symm.trans hl')
          rfl

end Values

section Arguments

variable {holder : Holder} {c : Call}

/-- The arguments of a list are read to its end. The first one must be there. -/
theorem ends_moreArguments {as : List Argument} (hc : c.AtTurn .arguments i)
    (hparen : ts.lexeme? i = some (.mark .closeParen) → (holder.attachAll as).arguments = [])
    (hs : Stands ts i ⟨ds, .arguments (holder.attachAll as)⟩) :
    Ends ts (ts.moreArguments holder.isConstant as) ⟨i, c :: calls⟩
      (Around calls fun bs j => i < j ∧ Stands ts j ⟨ds, .site (holder.attachAll bs).close⟩) := by
  induction i using forward_induction ts.tokens.length generalizing c as with
  | h i ih =>
    rw [TokenStream.moreArguments]
    refine Ends.turn_bind hc (Ends.name_bind hs (g := .argumentName (holder.attachAll as))
      (fun _ _ => rfl) (fun hname => misses_argument _ hname hparen) ?_)
    intro name _ hname
    refine Ends.colon_bind hname rfl ?_
    intro hcolon
    have hvalue := ends_value (i + 1 + 1) (.argument (holder.attachAll as) name)
      (c.turned i :: calls) (hc.admits (by omega) _) hcolon
    rw [Slot.isConstant, holder.isConstant_attachAll] at hvalue
    refine Ends.kept_bind hvalue ?_
    rintro v j ⟨hij, hbehind⟩
    rw [Slot.fill, holder.attach_attachAll] at hbehind
    have hne : (holder.attachAll (as ++ [⟨name, v⟩])).arguments ≠ [] := by
      simp [Holder.arguments_attachAll]
    have hij : i < j := by omega
    refine Ends.skip_bind (fun hl => ?_) fun hl => ?_
    · refine Ends.pure ⟨rfl, hij.trans (Nat.lt_succ_self j), hbehind.to hl ?_⟩
      exact if_neg (by simpa using hne)
    · exact Ends.of_fits fun hfit => Ends.around_lt hij
        (ih j hij hfit.cursor_le (hc.turned hij) (fun h => absurd h hl) hbehind)

/-- Arguments are read to their end where they may stand. -/
theorem ends_arguments (holder : Holder) {f : Focus} (ha : Admitted calls .arguments i)
    (hempty : holder.arguments = [])
    (hopen : f.next (.mark .openParen) = some (.to (.arguments holder)))
    (hnone : ts.lexeme? i ≠ some (.mark .openParen) → f.Alike (.site holder.close) (ts.lexeme? i))
    (hs : Stands ts i ⟨ds, f⟩) :
    Ends ts (ts.arguments holder.isConstant) ⟨i, calls⟩
      (Kept calls fun as j => i ≤ j ∧ Stands ts j ⟨ds, .site (holder.attachAll as).close⟩) := by
  refine Ends.within ha (Ends.skip_bind (fun hl => ?_) fun hl => ?_)
  · have hlist := hs.to hl hopen
    rw [← holder.attachAll_nil] at hlist
    refine Ends.around_mono (ends_moreArguments (.first (Nat.le_succ i))
      (fun _ => by rw [holder.attachAll_nil, hempty]) hlist) ?_
    exact fun _ j hj => ⟨(Nat.lt_of_succ_lt hj.1).le, hj.2⟩
  · have hnothing := hs.alike (hnone hl)
    rw [← holder.attachAll_nil] at hnothing
    exact Ends.pure ⟨rfl, le_rfl, hnothing⟩

end Arguments

section Directives

variable {site : Site} {c : Call}

/-- What follows directives, or follows none where some may stand. -/
def BehindDirectives (ts : TokenStream) (ds : List Definition) (site : Site)
    (dirs : List Directive) (i : Nat) : Prop :=
  ts.lexeme? i ≠ some (.mark .atSign) ∧ Stands ts i ⟨ds, .site (site.attachAll dirs)⟩

theorem ends_moreDirectives {dirs : List Directive} (hc : c.AtTurn .directives i)
    (hs : Stands ts i ⟨ds, .site (site.attachAll dirs)⟩) :
    Ends ts (ts.moreDirectives site.isConstant dirs) ⟨i, c :: calls⟩
      (Around calls fun es j => i ≤ j ∧ BehindDirectives ts ds site es j) := by
  induction i using forward_induction ts.tokens.length generalizing c dirs with
  | h i ih =>
    rw [TokenStream.moreDirectives]
    refine Ends.turn_bind hc (Ends.skip_bind (fun hl => ?_) fun hl => ?_)
    · have hsign := hs.to hl (g := .directiveSign (site.attachAll dirs)) rfl
      refine Ends.onlyName_bind hsign rfl ?_
      intro name hname
      have hadmits : Admitted (c.turned i :: calls) .arguments (i + 1 + 1) :=
        hc.admits (by omega) _
      have hgiven := ends_arguments (.directive (site.attachAll dirs) ⟨name, []⟩) hadmits rfl rfl
        (alike_directiveName _ name) hname
      rw [Holder.isConstant, site.isConstant_attachAll] at hgiven
      refine Ends.kept_bind hgiven ?_
      rintro as j ⟨hij, hbehind⟩
      have hdirective : (Holder.attachAll as (.directive (site.attachAll dirs) ⟨name, []⟩)).close =
          site.attachAll (dirs ++ [⟨name, as⟩]) := site.attach_attachAll dirs _
      rw [hdirective] at hbehind
      have hij : i < j := by omega
      refine Ends.of_fits fun hfit => Ends.around_mono
        (ih j hij hfit.cursor_le (hc.turned hij) hbehind) ?_
      exact fun _ k hk => ⟨hij.le.trans hk.1, hk.2⟩
    · exact Ends.pure ⟨rfl, le_rfl, hl, hs⟩

/-- Directives are read to their end. -/
theorem ends_directives (site : Site) (ha : Admitted calls .directives i)
    (hs : Stands ts i ⟨ds, .site site⟩) :
    Ends ts (ts.directives site.isConstant) ⟨i, calls⟩
      (Kept calls fun dirs j => i ≤ j ∧ BehindDirectives ts ds site dirs j) := by
  rw [← site.attachAll_nil] at hs
  exact Ends.within ha (ends_moreDirectives (.first le_rfl) hs)

end Directives

section Variables

variable {op : Operation} {c : Call}

theorem ends_defaultValue {name : String} {t : TypeRef} (ha : ∀ j, i < j → Admitted calls .value j)
    (hs : BehindType ts ds op name 0 t i) :
    Ends ts ts.defaultValue ⟨i, calls⟩ (Kept calls fun given j =>
      i ≤ j ∧ Stands ts j ⟨ds, .site (.variableOf op ⟨name, t, given, []⟩)⟩) := by
  obtain ⟨hs, hbang⟩ := hs
  refine Ends.skip_bind (fun hl => ?_) fun hl => ?_
  · have hequals : (Focus.typeEnd op name 0 t t.isNonNull).next (.mark .equals) =
        some (.to (.value (.defaultOf op name t))) := by
      cases t.isNonNull <;> rfl
    refine Ends.kept_bind (ends_value (i + 1) (.defaultOf op name t) calls
      (ha _ (Nat.lt_succ_self i)) (hs.to hl hequals)) ?_
    exact fun v j hj => Ends.pure ⟨rfl, (Nat.lt_of_succ_lt hj.1).le, hj.2⟩
  · exact Ends.pure ⟨rfl, le_rfl, hs.alike (alike_typeEnd op name t hbang hl)⟩

/-- The variables of an operation are read to the end of their list. The first one must be
there. -/
theorem ends_moreVariables {vs : List VariableDefinition} (hc : c.AtTurn .variableDefinitions i)
    (hparen : ts.lexeme? i = some (.mark .closeParen) → vs = [])
    (hs : Stands ts i ⟨ds, .variableDefinitions { op with variableDefinitions := vs }⟩) :
    Ends ts (ts.moreVariables vs) ⟨i, c :: calls⟩ (Around calls fun ws j =>
      i < j ∧ Stands ts j ⟨ds, .site (.operation { op with variableDefinitions := ws })⟩) := by
  induction i using forward_induction ts.tokens.length generalizing c vs with
  | h i ih =>
    rw [TokenStream.moreVariables]
    refine Ends.turn_bind hc (Ends.expect_bind hs rfl
      (fun hdollar => misses_dollar _ hdollar hparen) ?_)
    intro hsign
    refine Ends.onlyName_bind hsign rfl ?_
    intro name hname
    refine Ends.colon_bind hname rfl ?_
    intro hcolon
    refine Ends.kept_bind (ends_typeRef (hc.admits (by omega) _) hcolon) ?_
    rintro t j ⟨hij, htype⟩
    have hij : i < j := by omega
    refine Ends.kept_bind (ends_defaultValue (fun k hk => hc.admits (hij.trans hk) _) htype) ?_
    rintro given k ⟨hjk, hgiven⟩
    have hik : i < k := by omega
    refine Ends.kept_bind (ends_directives _ (hc.admits hik _) hgiven) ?_
    rintro dirs l ⟨hkl, hat, hattached⟩
    have hil : i < l := by omega
    have hbehind := hattached.alike (alike_variableOf _ _ hat)
    refine Ends.skip_bind (fun hl => ?_) fun hl => ?_
    · refine Ends.pure ⟨rfl, hil.trans (Nat.lt_succ_self l), hbehind.to hl ?_⟩
      simp [Focus.next, nextVariable, Operation.declare]
    · exact Ends.of_fits fun hfit => Ends.around_lt hil
        (ih l hil hfit.cursor_le (hc.turned hil) (fun h => absurd h hl) hbehind)

/-- The variables of an operation are read to their end. -/
theorem ends_variableDefinitions (ha : Admitted calls .variableDefinitions i)
    (hempty : op.variableDefinitions = []) (hs : Stands ts i ⟨ds, .operationName op⟩) :
    Ends ts ts.variableDefinitions ⟨i, calls⟩ (Kept calls fun vs j =>
      i ≤ j ∧ Stands ts j ⟨ds, .site (.operation { op with variableDefinitions := vs })⟩) := by
  have hop : { op with variableDefinitions := [] } = op := by rw [← hempty]
  refine Ends.within ha (Ends.skip_bind (fun hl => ?_) fun hl => ?_)
  · have hlist := hs.to hl (g := .variableDefinitions op) rfl
    rw [← hop] at hlist
    refine Ends.around_mono
      (ends_moreVariables (.first (Nat.le_succ i)) (fun _ => rfl) hlist) ?_
    exact fun _ j hj => ⟨(Nat.lt_of_succ_lt hj.1).le, hj.2⟩
  · have hnothing := hs.alike (alike_operationName op hl)
    rw [← hop] at hnothing
    exact Ends.pure ⟨rfl, le_rfl, hnothing⟩

end Variables

end Descent

end Safelist
