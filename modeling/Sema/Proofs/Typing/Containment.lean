import Sema.Proofs.Typing.Generics
import Sema.Proofs.Typing.Moments
import Sema.Proofs.Typing.Work

/-!
# The work stays over the variables that it is given

Every function of the checker works with the types that it can see, the variables and instances that
it takes, and what it finds in the session, and makes all other types from those. So its work stays
over any set of variables.
-/

namespace Sema

variable {U : Nat → Prop}

section Checks

/-! What the checks do that take no variables. -/

theorem constrain_emitsOver {expected actual : Ty} (he : expected.Over U) (ha : actual.Over U)
    (span : Span) (origin : Origin) :
    EmitsOver U (constrain expected actual span origin) fun _ => True :=
  .event (e := .constrain { expected, actual, span, origin }) ⟨he, ha⟩

theorem report_emitsOver (fault : TypeFault) (span : Span) :
    EmitsOver U (report fault span) fun _ => True := .event (e := .report ⟨span, fault⟩) trivial

theorem record_emitsOver (id : ExprId) {t : Ty} (ht : t.Over U) :
    EmitsOver U (record id t) fun _ => True := .event (e := .record id t) ht

theorem defer_emitsOver {d : Deferred} (htypes : ∀ t ∈ d.types, t.Over U)
    (hcaller : ∀ f, d.caller? = some f → f.ret.Over U) : EmitsOver U (defer d) fun _ => True :=
  .event (e := .defer d) ⟨htypes, hcaller⟩

theorem solvePending_emitsOver : EmitsOver U solvePending fun _ => True :=
  fun s _ => ⟨.event (e := .solve) trivial s, trivial⟩

theorem literalType_emitsOver (lit : Literal) (span : Span) :
    EmitsOver U (literalType lit span) (·.Over U) := by
  unfold literalType
  split
  · exact .pure Ty.over_unit
  · split
    · exact .pure (Ty.over_prim _)
    · split
      · exact .pure (Ty.over_prim _)
      · exact (report_emitsOver _ span).bind fun _ _ => .pure (Ty.over_prim _)

theorem checkLiteral_emitsOver (lit : Literal) {expected : Ty} (he : expected.Over U)
    (span : Span) : EmitsOver U (checkLiteral lit expected span) fun _ => True :=
  (literalType_emitsOver lit span).bind fun _ ht => constrain_emitsOver he ht span _

theorem agree_emitsOver {first : Table String Ty} (hfirst : ∀ x ∈ first.entries, x.2.Over U)
    (span : Span) {alternative : Span × Table String Ty}
    (halternative : ∀ x ∈ alternative.2.entries, x.2.Over U) :
    EmitsOver U (agree first span alternative) fun _ => True := by
  unfold agree
  split
  · refine .forM fun x hx => ?_
    obtain ⟨ha, hb⟩ := List.of_mem_zip hx
    exact constrain_emitsOver (hfirst _ ha) (halternative _ hb) span _
  · exact report_emitsOver _ _

theorem checkMentioned_emitsOver (d : StructDef) (struct : String) (mentioned : List String)
    (span : Span) : EmitsOver U (checkMentioned d struct mentioned span) fun _ => True := by
  unfold checkMentioned
  dsimp only
  split
  · exact report_emitsOver _ span
  · exact .pure trivial

theorem generalizeBinding_emitsOver (cx : Context) {t : Ty} (ht : t.Over U) :
    EmitsOver U (generalizeBinding cx t) fun s => s.body.Over U := by
  refine solvePending_emitsOver.bind fun o _ => ?_
  cases o with
  | some fault => exact .pure ht
  -- whatever is quantified, the body is the type with what has been solved
  | none => exact EmitsOver.get.bind fun s hs => .pure (hs.subst.closed.apply ht)

theorem binaryType_emitsOver (op : BinOp) {l r : Ty} (hl : l.Over U) (hr : r.Over U)
    (left right : Span) : EmitsOver U (binaryType op l r left right) (·.Over U) := by
  unfold binaryType
  split
  · exact (constrain_emitsOver Ty.over_bool hl _ _).bind fun _ _ =>
      (constrain_emitsOver Ty.over_bool hr _ _).bind fun _ _ => .pure Ty.over_bool
  · refine (constrain_emitsOver hl hr _ _).bind fun _ _ => .pure ?_
    split
    · exact Ty.over_bool
    · exact hl

theorem recordSite_emitsOver (cx : Context) {callee : Ty} (hcallee : callee.Over U) (span : Span) :
    EmitsOver U (recordSite cx callee span) fun _ => True := by
  unfold recordSite
  split
  · exact .event (e := .site _) hcallee
  · exact .pure trivial

variable {cx : Context} {t : Ty}

theorem checkReturn_emitsOver (hcx : cx.Over U) (ht : t.Over U) (span : Span) :
    EmitsOver U (checkReturn cx t span) fun _ => True := by
  unfold checkReturn
  split
  · exact constrain_emitsOver (hcx.frames _ (List.mem_of_mem_head? ‹_›)) ht span _
  · exact report_emitsOver _ span

theorem checkBreak_emitsOver (hcx : cx.Over U) (ht : t.Over U) (hasValue : Bool) (span : Span) :
    EmitsOver U (checkBreak cx t hasValue span) fun _ => True := by
  unfold checkBreak
  split
  · exact report_emitsOver _ span
  · rename_i expected _ hloops
    exact constrain_emitsOver (hcx.loops expected (by simp [hloops])) ht span _
  · split
    · exact report_emitsOver _ span
    · exact .pure trivial

theorem checkComplete_emitsOver (d : StructDef) (struct : String) (seen : List String)
    (span : Span) : EmitsOver U (checkComplete d struct seen span) fun _ => True := by
  refine .forM fun f _ => ?_
  split
  · exact .pure trivial
  · exact report_emitsOver _ span

theorem recordGenerics_emitsOver (function : String) (span : Span)
    {generics : List (String × Ty)} (hgenerics : ∀ x ∈ generics, x.2.Over U) :
    EmitsOver U (recordGenerics function span generics) fun _ => True := by
  refine .forM fun (param, t) hx => ?_
  dsimp only
  split
  · rename_i v hv
    have ht := hgenerics _ hx
    rw [Ty.asVar_eq_some_iff.mp hv] at ht
    exact .event (e := .generic v _) (Ty.over_var.mp ht)
  · exact .pure trivial

theorem resolveTupleField_emitsOver (tuple : Ty) {elems : List Ty}
    (helems : ∀ t ∈ elems, t.Over U) (field : String) {result : Ty} (hresult : result.Over U)
    (span : Span) :
    EmitsOver U (resolveTupleField tuple elems field result span) fun _ => True := by
  unfold resolveTupleField
  split
  · rename_i elem helem
    obtain ⟨n, _, hn⟩ := Option.bind_eq_some_iff.mp helem
    exact constrain_emitsOver (helems elem (List.mem_of_getElem? hn)) hresult span _
  · exact report_emitsOver _ span

theorem callMethod_emitsOver {receiver signature : Ty} (hreceiver : receiver.Over U)
    (hsignature : signature.Over U) {call : MemberCall}
    (hcall : (Deferred.method call).Over U) :
    EmitsOver U (callMethod receiver signature call) fun _ => True := by
  obtain ⟨_, hrest⟩ := List.forall_mem_cons.mp hcall.types
  obtain ⟨hret, hargs⟩ := List.forall_mem_cons.mp hrest
  have hcalled : (Ty.fn (receiver :: call.args) call.ret .openRow).Over U :=
    Ty.over_fn.mpr ⟨List.forall_mem_cons.mpr ⟨hreceiver, hargs⟩, hret⟩
  refine (constrain_emitsOver hsignature hcalled call.span _).bind fun _ _ => ?_
  split
  · exact .event (e := .site _) hsignature
  · exact .pure trivial

theorem resolveIter_emitsOver {iterable elem : Ty} (hiterable : iterable.Over U)
    (helem : elem.Over U) (span : Span) :
    EmitsOver U (resolveIter iterable elem span) fun _ => True := by
  unfold resolveIter
  split
  · exact constrain_emitsOver (hiterable.elem ‹_›) helem span _
  · exact report_emitsOver _ span

theorem checkGenerics_emitsOver (σ : Subst) (seen : Table Nat GenericCheck)
    (l : List (Nat × GenericCheck)) : EmitsOver U (checkGenerics σ seen l) fun _ => True := by
  induction l generalizing seen with
  | nil => exact .pure trivial
  | cons g r ih =>
    obtain ⟨v, c⟩ := g
    unfold checkGenerics
    dsimp only
    split
    · exact (report_emitsOver _ _).bind fun _ _ => ih seen
    · split
      · exact (report_emitsOver _ _).bind fun _ _ => ih seen
      · exact ih _

theorem checkSites_emitsOver (reported : List (String × EffectKind))
    (l : List (Spanned (String × EffectKind))) :
    EmitsOver U (checkSites reported l) fun _ => True := by
  induction l generalizing reported with
  | nil => exact .pure trivial
  | cons e r ih =>
    unfold checkSites
    split
    · exact ih reported
    · exact (report_emitsOver _ _).bind fun _ _ => ih _

end Checks

namespace Work

section Session

theorem constrain_stays {expected actual : Ty} (he : expected.Over U) (ha : actual.Over U)
    (span : Span) (origin : Origin) :
    (liftM (constrain expected actual span origin) : Work Unit).Stays U fun _ => True :=
  .lift (constrain_emitsOver he ha span origin)

theorem report_stays (fault : TypeFault) (span : Span) :
    (liftM (report fault span) : Work Unit).Stays U fun _ => True :=
  .lift (report_emitsOver fault span)

theorem fresh_stays : fresh.Stays U (·.Over U) :=
  Stays.freshVar.bind fun _ hv => .pure (Ty.over_var.mpr hv)

theorem freshMany_stays (n : Nat) : (freshMany n).Stays U fun l => ∀ t ∈ l, t.Over U := by
  induction n with
  | zero => exact .pure (List.forall_mem_nil _)
  | succ n ih =>
    exact fresh_stays.bind fun t ht => ih.bind fun l hl =>
      .pure (List.forall_mem_cons.mpr ⟨ht, hl⟩)

theorem reportFresh_stays (fault : TypeFault) (span : Span) :
    (reportFresh fault span).Stays U (·.Over U) :=
  (report_stays fault span).andThen fun _ => fresh_stays

theorem supply_stays (generics : List GenericParam) {types : List Ty}
    (htypes : ∀ t ∈ types, t.Over U) :
    (supply generics types).Stays U fun l => ∀ x ∈ l, x.2.Over U := by
  induction generics generalizing types with
  | nil => exact .pure (List.forall_mem_nil _)
  | cons g r ih =>
    cases types with
    | nil =>
      exact fresh_stays.bind fun t ht => (ih (List.forall_mem_nil _)).bind fun l hl =>
        .pure (List.forall_mem_cons.mpr ⟨ht, hl⟩)
    | cons t ts =>
      obtain ⟨ht, hts⟩ := List.forall_mem_cons.mp htypes
      exact (ih hts).bind fun l hl => .pure (List.forall_mem_cons.mpr ⟨ht, hl⟩)

theorem over_ofList {l : List (String × Ty)} (hl : ∀ x ∈ l, x.2.Over U) :
    ∀ name t, (Table.ofList l).get? name = some t → t.Over U :=
  fun _ _ ht => hl _ (Table.mem_of_mem_ofList (Table.mem_of_get? ht))

theorem instantiateNominal_stays (name : String) (generics : List GenericParam) :
    (instantiateNominal name generics).Stays U fun x =>
      x.1.Over U ∧ ∀ name t, x.2.get? name = some t → t.Over U :=
  (supply_stays generics (List.forall_mem_nil _)).bind fun _ hl =>
    .pure ⟨Ty.over_nominal.mpr (List.forall_mem_map.mpr hl), over_ofList hl⟩

theorem bind_stays (name : String) {t : Ty} (ht : t.Over U) :
    (change (·.bind name (.mono t))).Stays U fun _ => True := .change fun _ hw => hw.bind name ht

theorem bindEach_stays {l : List (String × Ty)} (hl : ∀ x ∈ l, x.2.Over U) :
    (bindEach l).Stays U fun _ => True := by
  unfold bindEach
  induction l with
  | nil => exact .pure trivial
  | cons x l ih =>
    obtain ⟨hx, hl⟩ := List.forall_mem_cons.mp hl
    exact (bind_stays x.1 hx).andThen fun _ => ih hl

theorem pushScope_stays : (change (·.pushScope)).Stays U fun _ => True :=
  .change fun _ hw => hw.pushScope

theorem popScope_stays : (change (·.popScope)).Stays U fun _ => True :=
  .change fun _ hw => hw.popScope

end Session

section Lowering

theorem applyNominal_stays (name : String) (arity : Nat) {args : List Ty}
    (hargs : ∀ t ∈ args, t.Over U) (span : Span) :
    (applyNominal name arity args span).Stays U (·.Over U) := by
  have hnamed : (pure (Ty.named name) : Work Ty).Stays U (·.Over U) := .pure (Ty.over_named name)
  have happ : (do
      return .app name (args.take arity ++ (← freshMany (arity - (args.take arity).length)))
        : Work Ty).Stays U (·.Over U) :=
    (freshMany_stays _).bind fun l hl => .pure <| Ty.over_app.mpr <|
      List.forall_mem_append.mpr ⟨fun t ht => hargs t (List.mem_of_mem_take ht), hl⟩
  unfold applyNominal
  split
  · split
    · exact (report_stays _ _).andThen fun _ => hnamed
    · exact hnamed
  · split
    · exact (report_stays _ _).andThen fun _ => happ
    · exact happ

theorem lowerName_stays (name : String) {args : List Ty} (hargs : ∀ t ∈ args, t.Over U)
    (span : Span) : (lowerName name args span).Stays U (·.Over U) := by
  refine Stays.context.bind fun cx hcx => ?_
  dsimp only
  split
  · exact applyNominal_stays name _ hargs span
  · split
    · exact .pure (hcx.scope.aliases _ _ ‹_›)
    · split
      · exact .pure (Ty.over_nominal.mpr hargs)
      · split
        · exact .pure (Ty.over_prim _)
        · exact reportFresh_stays _ _

/-- An expansion that stays over the set. -/
def Expansion.Stays (U : Nat → Prop) (expand : Expansion) : Prop :=
  ∀ a {args} span, (∀ t ∈ args, Ty.Over t U) → Work.Stays U (expand a args span) (·.Over U)

variable {expand : Expansion}

theorem lowerPath_stays (he : expand.Stays U) (segments : List String) {args : List Ty}
    (hargs : ∀ t ∈ args, t.Over U) (span : Span) :
    (lowerPath expand segments args span).Stays U (·.Over U) := by
  refine Stays.context.bind fun cx hcx => ?_
  dsimp only
  split
  · rename_i t ht
    split at ht
    · exact .pure (hcx.scope.params _ t ht)
    · cases ht
  · split
    · split
      · exact .pure (hcx.scope.selfTy _ ‹_›)
      · exact reportFresh_stays _ _
    · split
      · exact he _ span hargs
      · exact lowerName_stays _ hargs span

mutual

theorem lowerWith_stays (he : expand.Stays U) (t : TypeExpr) :
    (lowerWith expand t).Stays U (·.Over U) := by
  cases t with
  | mk span kind => exact lowerKind_stays he span kind

theorem lowerKind_stays (he : expand.Stays U) (span : Span) (k : TypeExprKind) :
    (lowerKind expand span k).Stays U (·.Over U) := by
  cases k with
  | primitive p => exact .pure (Ty.over_prim p)
  | path segments args =>
    exact (lowerAll_stays he args).bind fun _ hargs => lowerPath_stays he segments hargs span
  | branded base brand => exact (lowerWith_stays he base).bind fun _ ht => .pure ht
  | function params ret effects =>
    cases ret with
    | none =>
      exact (lowerAll_stays he params).bind fun _ hparams =>
        .pure (Ty.over_fn.mpr ⟨hparams, Ty.over_unit⟩)
    | some ret =>
      exact (lowerAll_stays he params).bind fun _ hparams =>
        (lowerWith_stays he ret).bind fun _ hret => .pure (Ty.over_fn.mpr ⟨hparams, hret⟩)
  | reference inner m l => exact lowerWith_stays he inner
  | tuple elems => exact (lowerAll_stays he elems).bind fun _ hl => .pure (Ty.over_tuple.mpr hl)
  | array elem n => exact (lowerWith_stays he elem).bind fun _ ht => .pure (Ty.over_array.mpr ht)

theorem lowerAll_stays (he : expand.Stays U) (l : List TypeExpr) :
    (lowerAll expand l).Stays U fun types => ∀ t ∈ types, t.Over U := by
  cases l with
  | nil => exact .pure (List.forall_mem_nil _)
  | cons t r =>
    exact (lowerWith_stays he t).bind fun _ ht => (lowerAll_stays he r).bind fun _ hr =>
      .pure (List.forall_mem_cons.mpr ⟨ht, hr⟩)

end

theorem withParams_stays {α : Type} {Q : α → Prop} {params : Table String Ty}
    (hparams : ∀ name t, params.get? name = some t → t.Over U) {m : Work α} (hm : m.Stays U Q) :
    (withParams params m).Stays U Q :=
  (Stays.change fun _ hw => hw.enterParams hparams).andThen fun _ => hm.bind fun _ ha =>
    (Stays.change fun _ hw => hw.leaveParams).andThen fun _ => .pure ha

theorem expandAlias_stays (n : Nat) : (expandAlias n).Stays U := by
  induction n with
  | zero => exact fun _ _ span _ => reportFresh_stays _ span
  | succ n ih =>
    intro a args span hargs
    have hbody : (do
        let params ← supply a.generics args
        change (·.enterAlias a.name.node)
        let t ← withParams (.ofList params) (lowerWith (expandAlias n) a.target)
        change (·.leaveAlias)
        return t : Work Ty).Stays U (·.Over U) :=
      (supply_stays a.generics hargs).bind fun _ hl =>
        (Stays.change fun _ hw => hw.enterAlias _).andThen fun _ =>
          (withParams_stays (over_ofList hl) (lowerWith_stays ih a.target)).bind fun _ ht =>
            (Stays.change fun _ hw => hw.leaveAlias).andThen fun _ => .pure ht
    refine Stays.context.bind fun cx _ => ?_
    dsimp only
    split
    · exact reportFresh_stays _ span
    · split
      · exact (report_stays _ span).andThen fun _ => hbody
      · exact hbody

theorem lower_stays (t : TypeExpr) : (lower t).Stays U (·.Over U) :=
  Stays.context.bind fun _ _ => lowerWith_stays (expandAlias_stays _) t

theorem lowerOr_stays {otherwise : Work Ty} (ho : otherwise.Stays U (·.Over U))
    (t : Option TypeExpr) : (lowerOr otherwise t).Stays U (·.Over U) := by
  cases t with
  | none => exact ho
  | some t => exact lower_stays t

end Lowering

section Patterns

theorem fieldType_stays (d : StructDef) (struct : String) (name : Ident) :
    (fieldType d struct name).Stays U (·.Over U) := by
  unfold fieldType
  split
  · exact lower_stays _
  · exact reportFresh_stays _ _

theorem aside_stays {m : Work Unit} (hm : m.Stays U fun _ => True) :
    (aside m).Stays U fun bound => ∀ x ∈ bound.entries, x.2.Over U := by
  refine pushScope_stays.andThen fun _ => hm.andThen fun _ => ?_
  refine Stays.bind (Q := fun cx => ∀ x ∈ (cx.innermost.map (·.body)).entries, x.2.Over U)
    (Stays.place.bind fun _ hw => .pure hw.innermost) fun cx hcx => ?_
  exact popScope_stays.andThen fun _ => .pure hcx

mutual

theorem checkPattern_stays (p : Pattern) {expected : Ty} (he : expected.Over U) :
    (checkPattern p expected).Stays U fun _ => True := by
  cases p with
  | wildcard span => exact .pure trivial
  | ident span name mutable byRef =>
    refine Stays.context.bind fun cx hcx => ?_
    split
    · exact (Stays.instantiate (hcx.valueConstructor ‹_›)).bind fun _ ht =>
        constrain_stays he ht span _
    · exact bind_stays name he
  | literal span value => exact .lift (checkLiteral_emitsOver value he span)
  | range span start stop inclusive =>
    exact .lift (.forIn (fun lit => checkLiteral_emitsOver lit he span) _)
  | tuple span elems =>
    exact (freshMany_stays _).bind fun _ htypes =>
      (constrain_stays he (Ty.over_tuple.mpr htypes) span _).andThen fun _ =>
        checkPatterns_stays elems htypes
  | struct span name fields rest =>
    refine Stays.context.bind fun cx _ => Stays.context.bind fun _ _ => ?_
    dsimp only
    split
    · exact (report_stays _ _).andThen fun _ => checkFields_stays fields fun _ => fresh_stays
    · rename_i d _
      refine (instantiateNominal_stays _ _).bind fun (type, params) ⟨htype, hparams⟩ => ?_
      refine (constrain_stays he htype span _).andThen fun _ => ?_
      refine (withParams_stays hparams (checkFields_stays fields (fieldType_stays d _))).andThen
        fun _ => ?_
      split
      · exact .lift (checkMentioned_emitsOver d _ _ span)
      · exact .pure trivial
  | enum span path fields =>
    refine Stays.context.bind fun cx hcx => ?_
    dsimp only
    split
    · exact (report_stays _ span).andThen fun _ => checkUnknown_stays fields
    · refine (Stays.instantiate (hcx.constructors _ _ ‹_›)).bind fun t ht => ?_
      split
      · obtain ⟨hparams, hret⟩ := Ty.over_fn.mp ht
        refine (constrain_stays he hret span _).andThen fun _ => ?_
        split
        · exact (report_stays _ span).andThen fun _ => checkPatterns_stays fields hparams
        · exact checkPatterns_stays fields hparams
      · refine (constrain_stays he ht span _).andThen fun _ => ?_
        split
        · exact report_stays _ span
        · exact .pure trivial
  | or span alternatives =>
    cases alternatives with
    | nil => exact .pure trivial
    | cons p rest =>
      exact (aside_stays (checkPattern_stays p he)).bind fun first hfirst =>
        (checkAlternatives_stays rest he span hfirst).andThen fun _ => bindEach_stays hfirst

theorem checkPatterns_stays (l : List Pattern) {types : List Ty} (htypes : ∀ t ∈ types, t.Over U) :
    (checkPatterns l types).Stays U fun _ => True := by
  cases l with
  | nil => exact .pure trivial
  | cons p ps =>
    cases types with
    | nil => exact .pure trivial
    | cons t ts =>
      obtain ⟨ht, hts⟩ := List.forall_mem_cons.mp htypes
      exact (checkPattern_stays p ht).andThen fun _ => checkPatterns_stays ps hts

theorem checkUnknown_stays (l : List Pattern) : (checkUnknown l).Stays U fun _ => True := by
  cases l with
  | nil => exact .pure trivial
  | cons p ps =>
    exact fresh_stays.bind fun _ ht => (checkPattern_stays p ht).andThen fun _ =>
      checkUnknown_stays ps

theorem checkFields_stays (l : List FieldPattern) {type : Ident → Work Ty}
    (htype : ∀ name, (type name).Stays U (·.Over U)) :
    (checkFields type l).Stays U fun _ => True := by
  cases l with
  | nil => exact .pure trivial
  | cons field r =>
    obtain ⟨span, name, pattern⟩ := field
    cases pattern with
    | none =>
      exact (htype name).bind fun _ ht => (bind_stays _ ht).andThen fun _ =>
        checkFields_stays r htype
    | some p =>
      exact (htype name).bind fun _ ht => (checkPattern_stays p ht).andThen fun _ =>
        checkFields_stays r htype

theorem checkAlternatives_stays (l : List Pattern) {expected : Ty} (he : expected.Over U)
    (span : Span) {first : Table String Ty} (hfirst : ∀ x ∈ first.entries, x.2.Over U) :
    (checkAlternatives l expected span first).Stays U fun _ => True := by
  cases l with
  | nil => exact .pure trivial
  | cons p r =>
    exact (aside_stays (checkPattern_stays p he)).bind fun bound hbound =>
      (Stays.lift (agree_emitsOver hfirst span hbound)).andThen fun _ =>
        checkAlternatives_stays r he span hfirst

end

end Patterns

section Inference

theorem bindLet_stays (pattern : Pattern) {t : Ty} (ht : t.Over U) (hasValue mutable : Bool) :
    (bindLet pattern t hasValue mutable).Stays U fun _ => True := by
  refine Stays.context.bind fun cx _ => ?_
  split
  · exact (Stays.check fun w _ => generalizeBinding_emitsOver w.context ht).bind fun s hs =>
      .change fun _ hw => hw.bind _ hs
  · exact checkPattern_stays pattern ht

theorem lookupName_stays (name : String) (missing : TypeFault) (span : Span) :
    (lookupName name missing span).Stays U (·.Over U) := by
  refine Stays.context.bind fun cx hcx => ?_
  split
  · exact .instantiate (hcx.env _ _ ‹_›)
  · exact reportFresh_stays _ _

theorem callType_stays {callee : Ty} (hcallee : callee.Over U) {args : List Ty}
    (hargs : ∀ t ∈ args, t.Over U) (span : Span) :
    (callType callee args span).Stays U (·.Over U) :=
  fresh_stays.bind fun _ hret =>
    (constrain_stays hcallee (Ty.over_fn.mpr ⟨hargs, hret⟩) span _).andThen fun _ =>
      (Stays.check fun w _ => recordSite_emitsOver w.context hcallee span).andThen fun _ =>
        .pure hret

theorem checkCall_stays (name : Option String) {callee : Ty} (hcallee : callee.Over U)
    {args : List Ty} (hargs : ∀ t ∈ args, t.Over U) (span : Span) :
    (checkCall name callee args span).Stays U (·.Over U) := by
  unfold checkCall
  split
  · split
    · exact (report_stays _ span).andThen fun _ => .pure (Ty.over_fn.mp hcallee).2
    · exact callType_stays hcallee hargs span
  · exact callType_stays hcallee hargs span

theorem checkInit_stays (d : StructDef) (struct : String) (name : Ident) {t : Ty}
    (ht : t.Over U) (valueSpan : Span) :
    (checkInit d struct name t valueSpan).Stays U fun _ => True := by
  unfold checkInit
  split
  · exact (lower_stays _).bind fun _ hfield => constrain_stays hfield ht valueSpan _
  · exact report_stays _ _

theorem bindParams_stays (params : List Param) :
    (bindParams params).Stays U fun l => ∀ t ∈ l, t.Over U := by
  induction params with
  | nil => exact .pure (List.forall_mem_nil _)
  | cons p r ih =>
    exact (lowerOr_stays fresh_stays p.ty).bind fun _ ht => (bind_stays _ ht).andThen fun _ =>
      ih.bind fun _ hl => .pure (List.forall_mem_cons.mpr ⟨ht, hl⟩)

/-- A loop around some work. -/
theorem inLoop_stays {α : Type} {Q : α → Prop} {value : Option Ty}
    (hvalue : ∀ t, value = some t → t.Over U) {m : Work α} (hm : m.Stays U Q) {β : Type}
    {R : β → Prop} {b : β} (hb : R b) : (do
      change (·.enterLoop value)
      let _ ← m
      change (·.leaveLoop)
      return b : Work β).Stays U R :=
  (Stays.change fun _ hw => hw.enterLoop hvalue).andThen fun _ => hm.andThen fun _ =>
    (Stays.change fun _ hw => hw.leaveLoop).andThen fun _ => .pure hb

mutual

theorem inferExpr_stays (e : Expr) : (inferExpr e).Stays U (·.Over U) := by
  cases e with
  | mk id span kind =>
    exact (inferKind_stays span kind).bind fun _ ht =>
      (Stays.lift (record_emitsOver id ht)).andThen fun _ => .pure ht

theorem inferKind_stays (span : Span) (k : ExprKind) : (inferKind span k).Stays U (·.Over U) := by
  cases k with
  | literal lit => exact .lift (literalType_emitsOver lit span)
  | ident name => exact lookupName_stays name _ span
  | path segments => exact lookupName_stays _ _ span
  | binary op left right =>
    exact (inferExpr_stays left).bind fun _ hl => (inferExpr_stays right).bind fun _ hr =>
      .lift (binaryType_emitsOver op hl hr _ _)
  | unary op operand =>
    refine (inferExpr_stays operand).bind fun _ ht => ?_
    cases op with
    | not => exact (constrain_stays Ty.over_bool ht _ _).andThen fun _ => .pure Ty.over_bool
    | _ => exact .pure ht
  | call callee args =>
    exact (inferExpr_stays callee).bind fun _ hcallee => (inferAll_stays args).bind
      fun _ hargs => checkCall_stays _ hcallee hargs span
  | methodCall receiver method args =>
    refine (inferExpr_stays receiver).bind fun receiver hreceiver =>
      (inferAll_stays args).bind fun args hargs => fresh_stays.bind fun ret hret => ?_
    refine (Stays.check fun w hw => defer_emitsOver ?_ ?_).andThen fun _ => .pure hret
    · exact List.forall_mem_cons.mpr ⟨hreceiver, List.forall_mem_cons.mpr ⟨hret, hargs⟩⟩
    · exact fun f hf => hw.context.frames f (List.mem_of_mem_head? hf)
  | field base field =>
    refine (inferExpr_stays base).bind fun base hbase => fresh_stays.bind fun result hresult => ?_
    refine (Stays.lift (defer_emitsOver (d := .field base _ result _) ?_ fun _ hf => ?_)).andThen
      fun _ => .pure hresult
    · exact List.forall_mem_cons.mpr ⟨hbase, List.forall_mem_singleton.mpr hresult⟩
    · cases hf
  | index base index =>
    exact (inferExpr_stays base).bind fun _ ht => (inferExpr_stays index).andThen fun _ =>
      fresh_stays.bind fun _ helem =>
        (constrain_stays (Ty.over_array.mpr helem) ht _ _).andThen fun _ => .pure helem
  | ifThen cond thenBranch elseBranch =>
    cases elseBranch with
    | none =>
      exact (inferExpr_stays cond).bind fun _ hc =>
        (constrain_stays Ty.over_bool hc _ _).andThen fun _ =>
          (inferBlock_stays thenBranch).andThen fun _ => .pure Ty.over_unit
    | some other =>
      exact (inferExpr_stays cond).bind fun _ hc =>
        (constrain_stays Ty.over_bool hc _ _).andThen fun _ =>
          (inferBlock_stays thenBranch).bind fun _ ht => (inferExpr_stays other).bind
            fun _ hu => (constrain_stays ht hu _ _).andThen fun _ => .pure ht
  | matchOn scrutinee arms =>
    exact (inferExpr_stays scrutinee).bind fun _ ht => fresh_stays.bind fun _ hresult =>
      (checkArms_stays arms ht hresult).andThen fun _ => .pure hresult
  | block body => exact inferBlock_stays body
  | lambda params ret body m =>
    refine pushScope_stays.andThen fun _ => (bindParams_stays params).bind fun types htypes =>
      (lowerOr_stays fresh_stays ret).bind fun ret hret => ?_
    refine (Stays.change fun w hw => hw.enterFrame (f := w.context.lambdaFrame ret)
      (by rwa [Context.lambdaFrame_ret])).andThen fun _ => ?_
    refine Stays.context.bind fun cx hcx => ?_
    refine (Stays.change fun _ hw => hw.withLoops fun _ ht => by cases ht).andThen fun _ => ?_
    refine (inferExpr_stays body).bind fun _ ht => (constrain_stays hret ht _ _).andThen fun _ => ?_
    exact (Stays.change fun _ hw => hw.withLoops hcx.loops).andThen fun _ =>
      (Stays.change fun _ hw => hw.leaveFrame).andThen fun _ => popScope_stays.andThen fun _ =>
        .pure (Ty.over_fn.mpr ⟨htypes, hret⟩)
  | tuple elems => exact (inferAll_stays elems).bind fun _ hl => .pure (Ty.over_tuple.mpr hl)
  | array elems =>
    exact fresh_stays.bind fun _ helem =>
      (inferElems_stays elems helem _).andThen fun _ => .pure (Ty.over_array.mpr helem)
  | structLit name fields base =>
    rw [inferKind]
    refine Stays.context.bind fun cx _ => Stays.context.bind fun _ _ => ?_
    dsimp only
    split
    · refine (report_stays _ _).andThen fun _ => (inferFields_stays fields).andThen fun _ => ?_
      cases base with
      | none => exact fresh_stays
      | some base => exact (inferExpr_stays base).discard.andThen fun _ => fresh_stays
    · refine (instantiateNominal_stays _ _).bind fun (type, params) ⟨htype, hparams⟩ => ?_
      refine (withParams_stays hparams (checkInits_stays _ _ fields [])).andThen fun _ => ?_
      cases base with
      | none =>
        exact (Stays.lift (checkComplete_emitsOver _ _ _ span)).andThen fun _ => .pure htype
      | some base =>
        exact (inferExpr_stays base).bind fun _ ht =>
          (constrain_stays htype ht _ _).andThen fun _ => .pure htype
  | cast expr ty => exact (inferExpr_stays expr).andThen fun _ => lower_stays ty
  | tryOp expr =>
    refine (inferExpr_stays expr).bind fun _ ht => fresh_stays.bind fun ok hok =>
      fresh_stays.bind fun err herr => ?_
    have hresult : (Ty.app Ty.resultName [ok, err]).Over U :=
      Ty.over_app.mpr (List.forall_mem_cons.mpr ⟨hok, List.forall_mem_singleton.mpr herr⟩)
    exact (constrain_stays hresult ht _ _).andThen fun _ => .pure hok
  | await expr =>
    refine (inferExpr_stays expr).bind fun _ ht => Stays.context.bind fun cx _ => ?_
    split
    · exact (report_stays _ span).andThen fun _ => .pure ht
    · exact .pure ht
  | whileLoop cond body =>
    exact (inferExpr_stays cond).bind fun _ hc =>
      (constrain_stays Ty.over_bool hc _ _).andThen fun _ =>
        inLoop_stays (fun _ ht => by cases ht) (inferBlock_stays body) Ty.over_unit
  | loop body =>
    exact fresh_stays.bind fun _ hresult =>
      inLoop_stays (fun _ ht => Option.some.inj ht ▸ hresult) (inferBlock_stays body) hresult
  | forLoop pattern iterable body =>
    refine (inferExpr_stays iterable).bind fun t ht => fresh_stays.bind fun elem helem => ?_
    refine (Stays.lift (defer_emitsOver (d := .iter t elem _) ?_ fun _ hf => ?_)).andThen
      fun _ => ?_
    · exact List.forall_mem_cons.mpr ⟨ht, List.forall_mem_singleton.mpr helem⟩
    · cases hf
    · exact pushScope_stays.andThen fun _ => (checkPattern_stays pattern helem).andThen fun _ =>
        (Stays.change fun _ hw => hw.enterLoop fun _ ht => by cases ht).andThen fun _ =>
          (inferBlock_stays body).andThen fun _ =>
            (Stays.change fun _ hw => hw.leaveLoop).andThen fun _ => popScope_stays.andThen
              fun _ => .pure Ty.over_unit
  | range start stop inclusive =>
    have hrange : ∀ {bound : Ty}, bound.Over U → (Ty.app Ty.rangeName [bound]).Over U :=
      fun h => Ty.over_app.mpr (List.forall_mem_singleton.mpr h)
    cases start with
    | none =>
      cases stop with
      | none => exact fresh_stays.bind fun _ hbound => .pure (hrange hbound)
      | some b =>
        exact fresh_stays.bind fun _ hbound => (inferExpr_stays b).bind fun _ hb =>
          (constrain_stays hbound hb _ _).andThen fun _ => .pure (hrange hbound)
    | some a =>
      cases stop with
      | none =>
        exact fresh_stays.bind fun _ hbound => (inferExpr_stays a).bind fun _ ha =>
          (constrain_stays hbound ha _ _).andThen fun _ => .pure (hrange hbound)
      | some b =>
        exact fresh_stays.bind fun _ hbound => (inferExpr_stays a).bind fun _ ha =>
          (constrain_stays hbound ha _ _).andThen fun _ => (inferExpr_stays b).bind
            fun _ hb => (constrain_stays hbound hb _ _).andThen fun _ => .pure (hrange hbound)

theorem inferAll_stays (l : List Expr) :
    (inferAll l).Stays U fun types => ∀ t ∈ types, t.Over U := by
  cases l with
  | nil => exact .pure (List.forall_mem_nil _)
  | cons e r =>
    exact (inferExpr_stays e).bind fun _ ht => (inferAll_stays r).bind fun _ hr =>
      .pure (List.forall_mem_cons.mpr ⟨ht, hr⟩)

theorem inferElems_stays (l : List Expr) {elem : Ty} (helem : elem.Over U) (origin : Origin) :
    (inferElems elem origin l).Stays U fun _ => True := by
  cases l with
  | nil => exact .pure trivial
  | cons e r =>
    exact (inferExpr_stays e).bind fun _ ht => (constrain_stays helem ht _ _).andThen
      fun _ => inferElems_stays r helem origin

theorem inferFields_stays (l : List FieldInit) : (inferFields l).Stays U fun _ => True := by
  cases l with
  | nil => exact .pure trivial
  | cons f r =>
    obtain ⟨span, name, value⟩ := f
    exact (inferExpr_stays value).andThen fun _ => inferFields_stays r

theorem checkInits_stays (d : StructDef) (struct : String) (l : List FieldInit)
    (seen : List String) : (checkInits d struct seen l).Stays U fun _ => True := by
  cases l with
  | nil => exact .pure trivial
  | cons f r =>
    obtain ⟨span, name, value⟩ := f
    refine (inferExpr_stays value).bind fun _ ht => ?_
    split
    · exact (report_stays _ _).andThen fun _ => checkInits_stays d struct r _
    · exact (checkInit_stays d struct name ht _).andThen fun _ => checkInits_stays d struct r _

theorem checkArms_stays (l : List MatchArm) {t result : Ty} (ht : t.Over U)
    (hresult : result.Over U) : (checkArms t result l).Stays U fun _ => True := by
  cases l with
  | nil => exact .pure trivial
  | cons arm r =>
    obtain ⟨span, pattern, guard, body⟩ := arm
    cases guard with
    | none =>
      exact pushScope_stays.andThen fun _ => (checkPattern_stays pattern ht).andThen fun _ =>
        (inferExpr_stays body).bind fun _ hu => (constrain_stays hresult hu _ _).andThen
          fun _ => popScope_stays.andThen fun _ => checkArms_stays r ht hresult
    | some g =>
      exact pushScope_stays.andThen fun _ => (checkPattern_stays pattern ht).andThen fun _ =>
        (inferExpr_stays g).bind fun _ hc => (constrain_stays Ty.over_bool hc _ _).andThen
          fun _ => (inferExpr_stays body).bind fun _ hu =>
            (constrain_stays hresult hu _ _).andThen fun _ => popScope_stays.andThen fun _ =>
              checkArms_stays r ht hresult

theorem inferBlock_stays (b : Block) : (inferBlock b).Stays U (·.Over U) := by
  obtain ⟨span, stmts, tail⟩ := b
  cases tail with
  | none =>
    refine pushScope_stays.andThen fun _ => (checkStmts_stays stmts).andThen fun _ => ?_
    dsimp only
    split
    · exact fresh_stays.bind fun _ ht => popScope_stays.andThen fun _ => .pure ht
    · exact popScope_stays.andThen fun _ => .pure Ty.over_unit
  | some e =>
    exact pushScope_stays.andThen fun _ => (checkStmts_stays stmts).andThen fun _ =>
      (inferExpr_stays e).bind fun _ ht => popScope_stays.andThen fun _ => .pure ht

theorem checkStmts_stays (l : List Stmt) : (checkStmts l).Stays U fun _ => True := by
  cases l with
  | nil => exact .pure trivial
  | cons s r => exact (checkStmt_stays s).andThen fun _ => checkStmts_stays r

theorem checkStmt_stays (s : Stmt) : (checkStmt s).Stays U fun _ => True := by
  cases s with
  | letBind span pattern ty value mutable =>
    cases value with
    | none =>
      exact (lowerOr_stays fresh_stays ty).bind fun _ ht => bindLet_stays pattern ht false mutable
    | some e =>
      cases ty with
      | none => exact (inferExpr_stays e).bind fun _ ht => bindLet_stays pattern ht true mutable
      | some ty =>
        exact (inferExpr_stays e).bind fun _ ht => (lower_stays ty).bind fun _ hdeclared =>
          (constrain_stays hdeclared ht _ _).andThen fun _ =>
            bindLet_stays pattern hdeclared true mutable
  | assign span target value =>
    exact (inferExpr_stays target).bind fun _ ht => (inferExpr_stays value).bind
      fun _ hu => constrain_stays ht hu _ _
  | expr e => exact (inferExpr_stays e).andThen fun _ => .pure trivial
  | ret span value =>
    cases value with
    | none => exact .check fun _ hw => checkReturn_emitsOver hw.context Ty.over_unit span
    | some e =>
      exact (inferExpr_stays e).bind fun _ ht =>
        .check fun _ hw => checkReturn_emitsOver hw.context ht span
  | brk span value =>
    cases value with
    | none => exact .check fun _ hw => checkBreak_emitsOver hw.context Ty.over_unit _ span
    | some e =>
      exact (inferExpr_stays e).bind fun _ ht =>
        .check fun _ hw => checkBreak_emitsOver hw.context ht _ span
  | cont span =>
    refine Stays.context.bind fun cx _ => ?_
    split
    · exact report_stays _ span
    · exact .pure trivial

end

end Inference

section Declaring

theorem declareType_stays (name : Ident) (add : Declarations → Declarations) :
    (declareType name add).Stays U fun _ => True := by
  refine Stays.context.bind fun cx _ => ?_
  split
  · exact report_stays _ _
  · exact .change fun _ hw => hw.onDecls add

theorem importName_stays (name : String) : (importName name).Stays U fun _ => True := by
  refine Stays.freshVar.bind fun v hv => ?_
  have hscheme : Scheme.Over ⟨[v], .var v⟩ U := Scheme.over_of_body (Ty.over_var.mpr hv)
  refine (Stays.declare fun w hw => hw.declare ?_ (hw.root.bindGlobal name hscheme)).andThen
    fun _ => .change fun _ hw => hw.onDecls _
  exact { hw.interface with env := hw.interface.env.bindGlobal name hscheme }

theorem declareItem_stays (item : Item) : (declareItem item).Stays U fun _ => True := by
  cases item with
  | typeAlias a => exact declareType_stays _ _
  | struct d => exact declareType_stays _ _
  | enum d => exact declareType_stays _ _
  | trait d => exact .change fun _ hw => hw.onDecls _
  | imports i => exact .forM importName_stays i.names
  | function d => exact .pure trivial
  | const d => exact .pure trivial
  | impl b => exact .pure trivial

theorem withSelf_stays {self : Ty} (hself : self.Over U) {m : Work Unit}
    (hm : m.Stays U fun _ => True) : (withSelf self m).Stays U fun _ => True :=
  Stays.context.bind fun _ hcx =>
    (Stays.change fun _ hw => hw.putSelf fun _ ht => Option.some.inj ht ▸ hself).andThen fun _ =>
      hm.andThen fun _ => .change fun _ hw => hw.putSelf hcx.scope.selfTy

theorem paramType_stays (p : Param) : (paramType p).Stays U (·.Over U) := by
  refine Stays.context.bind fun cx hcx => ?_
  split
  · exact lower_stays _
  · split
    · exact .pure (hcx.scope.selfTy _ ‹_›)
    · exact fresh_stays
  · exact fresh_stays

theorem signature_stays (d : FunctionDef) {outer : List (String × Ty)}
    (houter : ∀ x ∈ outer, x.2.Over U) : (signature d outer).Stays U (·.Over U) := by
  refine (supply_stays d.generics (List.forall_mem_nil _)).bind fun own hown => ?_
  have hgenerics : ∀ x ∈ outer ++ own, x.2.Over U := List.forall_mem_append.mpr ⟨houter, hown⟩
  exact withParams_stays (over_ofList hgenerics) <|
    (Stays.mapM paramType_stays d.params).bind fun params hparams =>
      (lowerOr_stays (.pure Ty.over_unit) d.ret).bind fun ret hret =>
        .pure ⟨hparams, hret, hgenerics⟩

theorem declareMethod_stays (typeName : String) {outer : List (String × Ty)}
    (houter : ∀ x ∈ outer, x.2.Over U) (d : FunctionDef) :
    (declareMethod typeName outer d).Stays U fun _ => True :=
  (signature_stays d houter).bind fun _ hs =>
    .declare fun _ hw => hw.addMethod typeName d.name.node hs

theorem variantType_stays {result : Ty} (hresult : result.Over U) (fields : List TypeExpr) :
    (variantType result fields).Stays U (·.Over U) := by
  unfold variantType
  split
  · exact .pure hresult
  · exact (Stays.mapM lower_stays fields).bind fun _ hfields =>
      .pure (Ty.over_fn.mpr ⟨hfields, hresult⟩)

theorem declareVariant_stays (enum : String) (vars : List Nat) {result : Ty}
    (hresult : result.Over U) (v : VariantDef) :
    (declareVariant enum vars result v).Stays U fun _ => True :=
  (variantType_stays hresult v.fields).bind fun _ hbody =>
    .declare fun _ hw => hw.addConstructor _ (Scheme.over_of_body hbody)

theorem declareEnum_stays (d : EnumDef) : (declareEnum d).Stays U fun _ => True := by
  refine (supply_stays d.generics (List.forall_mem_nil _)).bind fun params hparams => ?_
  have hresult : (Ty.nominal d.name.node (params.map (·.2))).Over U :=
    Ty.over_nominal.mpr (List.forall_mem_map.mpr hparams)
  exact withParams_stays (over_ofList hparams)
    (.forM (declareVariant_stays d.name.node _ hresult) d.variants)

theorem inheritMethod_stays (b : ImplBlock) (traitName typeName : String)
    {outer : List (String × Ty)} (houter : ∀ x ∈ outer, x.2.Over U) (d : FunctionDef) :
    (inheritMethod b traitName typeName outer d).Stays U fun _ => True := by
  unfold inheritMethod
  split
  · exact .pure trivial
  · split
    · exact declareMethod_stays typeName houter d
    · exact report_stays _ _

theorem implementTrait_stays (b : ImplBlock) (typeName : String) {outer : List (String × Ty)}
    (houter : ∀ x ∈ outer, x.2.Over U) (traitName : Ident) :
    (implementTrait b typeName outer traitName).Stays U fun _ => True := by
  refine Stays.context.bind fun cx _ => ?_
  split
  · exact report_stays _ _
  · refine (Stays.forM (inheritMethod_stays b _ typeName houter) _).andThen fun _ =>
      .lift (.forM fun m _ => ?_)
    split
    · exact .pure trivial
    · exact report_emitsOver _ _

theorem declareImpl_stays (b : ImplBlock) : (declareImpl b).Stays U fun _ => True := by
  refine (supply_stays b.generics (List.forall_mem_nil _)).bind fun generics hgenerics => ?_
  refine (withParams_stays (over_ofList hgenerics) (lower_stays b.target)).bind fun self hself => ?_
  have hmethods := Stays.forM
    (declareMethod_stays (self.nominalName?.getD b.target.text) hgenerics) b.methods
  refine (withSelf_stays hself (hmethods.andThen fun _ => ?_)).andThen fun _ =>
    .declare fun w hw => hw.declare { hw.interface with impls := ?_ } hw.root
  · cases b.traitName with
    | some t => exact implementTrait_stays b _ hgenerics t
    | none => exact .pure trivial
  · exact List.forall_mem_append.mpr ⟨hw.interface.impls, List.forall_mem_singleton.mpr hself⟩

theorem declareTrait_stays (d : TraitDef) : (declareTrait d).Stays U fun _ => True :=
  withSelf_stays (Ty.over_named _) <|
    (supply_stays d.generics (List.forall_mem_nil _)).bind fun _ hgenerics =>
      .forM (declareMethod_stays d.name.node hgenerics) d.methods

theorem interfaceItem_stays (item : Item) : (interfaceItem item).Stays U fun _ => True := by
  cases item with
  | function d =>
    refine Stays.place.bind fun w _ => ?_
    split
    · exact report_stays _ _
    · exact (signature_stays d (List.forall_mem_nil _)).bind fun _ hs =>
        .declare fun _ hw => hw.addFunction _ hs
  | const d =>
    exact (lower_stays d.ty).bind fun _ ht => .declare fun _ hw => hw.addConst _ ht
  | enum d => exact declareEnum_stays d
  | impl b => exact declareImpl_stays b
  | trait d => exact declareTrait_stays d
  | struct d => exact .pure trivial
  | typeAlias a => exact .pure trivial
  | imports x => exact .pure trivial

end Declaring

section Bodies

theorem checkContract_stays {ret : Ty} (hret : ret.Over U) (c : Contract) :
    (checkContract ret c).Stays U fun _ => True := by
  unfold checkContract
  split
  · exact pushScope_stays.andThen fun _ => (bind_stays _ hret).andThen fun _ =>
      (inferExpr_stays c.condition).bind fun _ ht =>
        (constrain_stays Ty.over_bool ht _ _).andThen fun _ => popScope_stays
  · exact (inferExpr_stays c.condition).bind fun _ ht =>
      (constrain_stays Ty.over_bool ht _ _).andThen fun _ => .pure trivial

theorem checkFunction_stays (d : FunctionDef) (name : String) :
    (checkFunction d name).Stays U fun _ => True := by
  refine Stays.place.bind fun w hw => ?_
  split
  · rename_i body s _ hs
    have hsignature := hw.interface.signatures name s hs
    have hparams : ∀ x ∈ (d.params.map (·.name.node)).zip s.params, x.2.Over U :=
      fun x hx => hsignature.params x.2 (List.of_mem_zip hx).2
    refine pushScope_stays.andThen fun _ =>
      (Stays.change fun _ hw => hw.enterParams (over_ofList hsignature.generics)).andThen fun _ =>
        (bind_stays name hsignature.type).andThen fun _ => (bindEach_stays hparams).andThen
          fun _ => ?_
    refine (Stays.change fun _ hw => hw.enterFrame hsignature.ret).andThen fun _ =>
      (Stays.forM (checkContract_stays hsignature.ret) d.contracts).andThen fun _ =>
        (inferBlock_stays body).bind fun _ ht =>
          (constrain_stays hsignature.ret ht _ _).andThen fun _ => ?_
    exact (Stays.change fun _ hw => hw.leaveFrame).andThen fun _ =>
      (Stays.change fun _ hw => hw.leaveParams).andThen fun _ => popScope_stays.andThen fun _ =>
        .lift (recordGenerics_emitsOver _ _ hsignature.generics)
  · exact .pure trivial

theorem checkMethods_stays (typeName : String) {self : Ty} (hself : self.Over U)
    (methods : List FunctionDef) : (checkMethods typeName self methods).Stays U fun _ => True :=
  withSelf_stays hself (.forM (fun m => checkFunction_stays m _) methods)

theorem checkBodies_stays {targets : List ImplTarget}
    (htargets : ∀ target ∈ targets, target.selfTy.Over U) (items : List Item) :
    (checkBodies targets items).Stays U fun _ => True := by
  induction items generalizing targets with
  | nil => exact .pure trivial
  | cons item r ih =>
    cases item with
    | function d => exact (checkFunction_stays d _).andThen fun _ => ih htargets
    | const d =>
      refine (inferExpr_stays d.value).bind fun _ ht => Stays.place.bind fun w hw => ?_
      split
      · exact (constrain_stays (hw.interface.consts _ _ ‹_›) ht _ _).andThen fun _ => ih htargets
      · exact ih htargets
    | impl b =>
      cases targets with
      | nil => exact ih htargets
      | cons target rest =>
        obtain ⟨htarget, hrest⟩ := List.forall_mem_cons.mp htargets
        exact (checkMethods_stays _ htarget b.methods).andThen fun _ => ih hrest
    | trait d =>
      exact (checkMethods_stays _ (Ty.over_named _) d.methods).andThen fun _ => ih htargets
    | struct d => exact ih htargets
    | enum d => exact ih htargets
    | typeAlias a => exact ih htargets
    | imports x => exact ih htargets

end Bodies

section Members

theorem resolveStructField_stays {base : Ty} (hbase : base.Over U) (field : String) {result : Ty}
    (hresult : result.Over U) (span : Span) :
    (resolveStructField base field result span).Stays U fun _ => True := by
  refine Stays.context.bind fun cx _ => ?_
  split
  · exact report_stays _ span
  · split
    · exact report_stays _ span
    · exact (supply_stays _ hbase.args).bind fun _ hparams =>
        (withParams_stays (over_ofList hparams) (lower_stays _)).bind fun _ ht =>
          constrain_stays ht hresult span _

theorem resolveField_stays {base : Ty} (hbase : base.Over U) (field : String) {result : Ty}
    (hresult : result.Over U) (span : Span) :
    (resolveField base field result span).Stays U fun _ => True := by
  have hplain := hbase.unbranded
  unfold resolveField
  split
  · rename_i name elems heq
    split
    · exact .lift
        (resolveTupleField_emitsOver _ (Ty.over_app.mp (heq ▸ hplain)) field hresult span)
    · exact resolveStructField_stays hplain field hresult span
  · exact resolveStructField_stays hplain field hresult span

theorem resolveMethod_stays {receiver : Ty} (hreceiver : receiver.Over U) {call : MemberCall}
    (hcall : (Deferred.method call).Over U) :
    (resolveMethod receiver call).Stays U fun _ => True := by
  unfold resolveMethod
  split
  · exact report_stays _ _
  · refine Stays.place.bind fun w hw => ?_
    split
    · exact report_stays _ _
    · rename_i scheme hscheme
      refine (Stays.instantiate (hw.interface.methods _ _ scheme hscheme)).bind
        fun signature hsignature => ?_
      split
      · split
        · exact (report_stays _ _).andThen fun _ => constrain_stays
            (Ty.over_fn.mp hsignature).2 (hcall.types call.ret (by simp [Deferred.types])) _ _
        · exact .lift (callMethod_emitsOver hreceiver hsignature hcall)
      · exact .lift (callMethod_emitsOver hreceiver hsignature hcall)

theorem resolveMember_stays {receiver : Ty} (hreceiver : receiver.Over U) {d : Deferred}
    (hd : d.Over U) : (resolveMember receiver d).Stays U fun _ => True := by
  cases d with
  | field base name result span =>
    exact resolveField_stays hreceiver name (hd.types result (by simp [Deferred.types])) span
  | method call => exact resolveMethod_stays hreceiver hd
  | iter iterable elem span =>
    exact .lift
      (resolveIter_emitsOver hreceiver (hd.types elem (by simp [Deferred.types])) span)

namespace Settling

variable {α β : Type} {Q : α → Prop} {R : β → Prop}

/-- The work stays over the set, and its result has `Q` unless a solve fails. -/
def Stays (U : Nat → Prop) (m : Settling α) (Q : α → Prop) : Prop :=
  Work.Stays U m.run fun x => ∀ a, x = .ok a → Q a

namespace Stays

theorem pure {a : α} (h : Q a) : (pure a : Settling α).Stays U Q :=
  Work.Stays.pure fun _ heq => Except.ok.inj heq ▸ h

theorem throw (fault : SolveFault) : (throw fault : Settling α).Stays U Q :=
  Work.Stays.pure fun _ heq => by cases heq

theorem lift {m : Work α} (hm : Work.Stays U m Q) : (liftM m : Settling α).Stays U Q :=
  hm.bind fun _ h => pure h

theorem check {m : Check α} (hm : EmitsOver U m Q) : (liftM m : Settling α).Stays U Q :=
  lift (Work.Stays.lift hm)

theorem bind {m : Settling α} {f : α → Settling β} (hm : m.Stays U Q)
    (hf : ∀ a, Q a → (f a).Stays U R) : (m >>= f).Stays U R := by
  refine Work.Stays.bind hm fun x hx => ?_
  cases x with
  | error fault => exact throw fault
  | ok a => exact hf a (hx a rfl)

theorem forM {f : α → Settling Unit} {l : List α}
    (hf : ∀ a ∈ l, (f a).Stays U fun _ => True) : (l.forM f).Stays U fun _ => True := by
  induction l with
  | nil => exact .pure trivial
  | cons a r ih =>
    obtain ⟨ha, hr⟩ := List.forall_mem_cons.mp hf
    exact ha.bind fun _ _ => ih hr

end Stays

end Settling

theorem solveAll_stays : solveAll.Stays U fun _ => True := by
  refine (Settling.Stays.check solvePending_emitsOver).bind fun o _ => ?_
  cases o with
  | some fault => exact .throw fault
  | none => exact .pure trivial

theorem settleAmbiguous_stays {d : Deferred} (hd : d.Over U) :
    (settleAmbiguous d).Stays U fun _ => True := by
  cases d with
  | iter iterable elem span =>
    obtain ⟨hiterable, hrest⟩ := List.forall_mem_cons.mp hd.types
    have helem := List.forall_mem_singleton.mp hrest
    exact (Settling.Stays.check (constrain_emitsOver (Ty.over_array.mpr helem) hiterable _ _)).bind
      fun _ _ => solveAll_stays
  | field base name result span => exact .check (report_emitsOver _ _)
  | method call => exact .check (report_emitsOver _ _)

theorem settleRound_stays {l : List Deferred} (hl : ∀ d ∈ l, d.Over U) :
    (settleRound l).Stays U fun r => ∀ d ∈ r, d.Over U := by
  induction l with
  | nil => exact solveAll_stays.bind fun _ _ => .pure (List.forall_mem_nil _)
  | cons d r ih =>
    obtain ⟨hd, hr⟩ := List.forall_mem_cons.mp hl
    refine solveAll_stays.bind fun _ _ => (Settling.Stays.check .get).bind fun s hs => ?_
    have hreceiver := hs.subst.closed.apply hd.receiver
    dsimp only
    split
    · exact (ih hr).bind fun _ hrest => .pure (List.forall_mem_cons.mpr ⟨hd, hrest⟩)
    · exact (Settling.Stays.lift (resolveMember_stays hreceiver hd)).bind fun _ _ => ih hr

theorem settle_stays {pending : List Deferred} (hpending : ∀ d ∈ pending, d.Over U) :
    (settle pending).Stays U fun _ => True := by
  fun_induction settle pending with
  | case1 pending h => exact .pure trivial
  | case2 pending h ih =>
    refine (settleRound_stays hpending).bind fun waiting hwaiting => ?_
    -- what a round leaves was waiting before it, so the next round starts over the set as well
    split
    · exact ih waiting ‹_› hwaiting
    · exact .forM fun d hd => settleAmbiguous_stays (hwaiting d hd)

theorem solveProgram_stays : solveProgram.Stays U fun _ => True :=
  solveAll_stays.bind fun _ _ => (Settling.Stays.check .get).bind fun _ hs =>
    settle_stays fun d hd => hs.deferred d (Array.mem_toList_iff.mp hd)

theorem finish_stays : finish.Stays U fun _ => True := by
  refine Stays.bind solveProgram_stays fun x _ => ?_
  cases x with
  | error fault => exact (report_stays _ _).andThen fun _ => .pure trivial
  | ok _ =>
    refine (Stays.lift .get).bind fun s _ =>
      (Stays.lift (checkGenerics_emitsOver _ _ _)).andThen fun _ =>
        Stays.andThen (Q := fun _ => True) (.check fun w _ => ?_) fun _ => .pure trivial
    split
    · exact checkSites_emitsOver _ _
    · exact .pure trivial

end Members

/-- So the whole check does, whatever the items are. -/
theorem checkItems_stays (items : List Item) : (checkItems items).Stays U fun _ => True :=
  (Stays.forM declareItem_stays items).andThen fun _ =>
    (Stays.forM interfaceItem_stays items).andThen fun _ => Stays.place.bind fun _ hw =>
      (checkBodies_stays hw.interface.impls items).andThen fun _ => finish_stays

end Work

end Sema
