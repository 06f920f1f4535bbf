import Sema.Proofs.Typing.Events

/-!
# Which events the parts of the checker emit

Lowering types and declaring items take variables and complain, and do nothing else. Checking
patterns takes notes only: it may constrain, and never solves, records or defers. The helpers of
inference and the settling of member accesses may do the rest, but only the inference of an
expression records a type.
-/

namespace Sema

section Lowering

theorem applyNominal_declaring (name : String) (arity : Nat) (args : List Ty) (span : Span) :
    Declaring (applyNominal name arity args span) := by
  unfold applyNominal
  split
  · dsimp only
    split
    · exact (report_declaring _ _ rfl rfl).bind fun _ => .pure _
    · exact .pure _
  · dsimp only
    split
    · exact (report_declaring _ _ rfl rfl).bind fun _ =>
        (freshMany_declaring _).bind fun _ => .pure _
    · exact (freshMany_declaring _).bind fun _ => .pure _

theorem lowerName_declaring (sc : TypeScope) (name : String) (args : List Ty) (span : Span) :
    Declaring (lowerName sc name args span) := by
  unfold lowerName
  split
  · exact applyNominal_declaring _ _ _ _
  · split
    · exact .pure _
    · split
      · exact .pure _
      · split
        · exact .pure _
        · exact reportFresh_declaring _ _ rfl rfl

theorem lowerPath_declaring {expand : Expander}
    (hexpand : ∀ sc a args span, Declaring (expand sc a args span)) (sc : TypeScope)
    (segments : List String) (args : List Ty) (span : Span) :
    Declaring (lowerPath expand sc segments args span) := by
  unfold lowerPath
  dsimp only
  split
  · exact .pure _
  · split
    · split
      · exact .pure _
      · exact reportFresh_declaring _ _ rfl rfl
    · split
      · exact hexpand _ _ _ _
      · exact lowerName_declaring _ _ _ _

mutual

theorem lowerWith_declaring {expand : Expander}
    (hexpand : ∀ sc a args span, Declaring (expand sc a args span)) (sc : TypeScope) :
    (t : TypeExpr) → Declaring (lowerWith expand sc t)
  | ⟨span, kind⟩ => by
    rw [lowerWith]
    exact lowerKind_declaring hexpand sc span kind

theorem lowerKind_declaring {expand : Expander}
    (hexpand : ∀ sc a args span, Declaring (expand sc a args span)) (sc : TypeScope) (span : Span) :
    (k : TypeExprKind) → Declaring (lowerKind expand sc span k)
  | .primitive _ => .pure _
  | .path segments args => by
    rw [lowerKind]
    exact (lowerAll_declaring hexpand sc args).bind fun _ => lowerPath_declaring hexpand _ _ _ _
  | .branded base _ => by
    rw [lowerKind]
    exact (lowerWith_declaring hexpand sc base).bind fun _ => .pure _
  | .function params none _ => by
    rw [lowerKind]
    exact (lowerAll_declaring hexpand sc params).bind fun _ => (Emits.pure _).bind fun _ => .pure _
  | .function params (some ret) _ => by
    rw [lowerKind]
    exact (lowerAll_declaring hexpand sc params).bind fun _ =>
      (lowerWith_declaring hexpand sc ret).bind fun _ => .pure _
  | .reference inner _ _ => by
    rw [lowerKind]
    exact lowerWith_declaring hexpand sc inner
  | .tuple elems => by
    rw [lowerKind]
    exact (lowerAll_declaring hexpand sc elems).bind fun _ => .pure _
  | .array elem _ => by
    rw [lowerKind]
    exact (lowerWith_declaring hexpand sc elem).bind fun _ => .pure _

theorem lowerAll_declaring {expand : Expander}
    (hexpand : ∀ sc a args span, Declaring (expand sc a args span)) (sc : TypeScope) :
    (l : List TypeExpr) → Declaring (lowerAll expand sc l)
  | [] => by
    rw [lowerAll]
    exact .pure _
  | t :: r => by
    rw [lowerAll]
    exact (lowerWith_declaring hexpand sc t).bind fun _ =>
      (lowerAll_declaring hexpand sc r).bind fun _ => .pure _

end

/-- By induction on how deep aliases may nest. -/
theorem expandAlias_declaring : (n : Nat) → (sc : TypeScope) → (a : TypeAlias) → (args : List Ty) →
    (span : Span) → Declaring (expandAlias n sc a args span)
  | 0, _, _, _, _ => reportFresh_declaring _ _ rfl rfl
  | n + 1, sc, a, args, span => by
    have hlower : ∀ sc t, Declaring (lowerWith (expandAlias n) sc t) :=
      lowerWith_declaring (expandAlias_declaring n)
    unfold expandAlias
    dsimp only
    split
    · exact reportFresh_declaring _ _ rfl rfl
    · split
      · exact (report_declaring _ _ rfl rfl).bind fun _ =>
          (supply_declaring _ _).bind fun _ => hlower _ _
      · exact (supply_declaring _ _).bind fun _ => hlower _ _

theorem lower_declaring (sc : TypeScope) (t : TypeExpr) : Declaring (lower sc t) :=
  lowerWith_declaring (expandAlias_declaring _) sc t

theorem lower_notes (sc : TypeScope) (t : TypeExpr) : Notes (lower sc t) :=
  (lower_declaring sc t).notes

theorem lowerOr_emits {K : Event → Prop} (hK : ∀ e, Event.IsDeclaring e → K e) (sc : TypeScope)
    {otherwise : Check Ty} (h : Emits K otherwise) :
    (t : Option TypeExpr) → Emits K (lowerOr sc otherwise t)
  | some t => (lower_declaring sc t).mono hK
  | none => h

theorem lowerOr_notes (sc : TypeScope) {otherwise : Check Ty} (h : Notes otherwise)
    (t : Option TypeExpr) : Notes (lowerOr sc otherwise t) :=
  lowerOr_emits (fun _ => Event.IsDeclaring.isNote) sc h t

end Lowering

section Patterns

theorem literalType_notes (lit : Literal) (span : Span) : Notes (literalType lit span) := by
  unfold literalType
  split
  · exact .pure _
  · split
    · exact .pure _
    · split
      · exact .pure _
      · exact (report_notes _ _ rfl rfl).bind fun _ => .pure _

theorem checkLiteral_notes (lit : Literal) (expected : Ty) (span : Span) :
    Notes (checkLiteral lit expected span) :=
  (literalType_notes lit span).bind fun _ => constrain_notes _ _ _ _

theorem agree_notes (first : Table String Ty) (span : Span)
    (alternative : Span × Table String Ty) : Notes (agree first span alternative) := by
  unfold agree
  split
  · exact .forM (fun _ => constrain_notes _ _ _ _) _
  · exact report_notes _ _ rfl rfl

theorem fieldType_notes (sc : TypeScope) (d : StructDef) (struct : String) (name : Ident) :
    Notes (fieldType sc d struct name) := by
  unfold fieldType
  split
  · exact lower_notes _ _
  · exact reportFresh_notes _ _ rfl rfl

theorem checkMentioned_notes (d : StructDef) (struct : String) (mentioned : List String)
    (span : Span) : Notes (checkMentioned d struct mentioned span) := by
  unfold checkMentioned
  dsimp only
  split
  · exact report_notes _ _ rfl rfl
  · exact .pure _

mutual

theorem checkPattern_notes (cx : Context) : (p : Pattern) → (expected : Ty) →
    Notes (checkPattern cx p expected)
  | .wildcard _, _ => by
    rw [checkPattern]
    exact .pure _
  | .ident _ name _ _, _ => by
    rw [checkPattern]
    split
    · exact (instantiate_notes _).bind fun _ => (constrain_notes _ _ _ _).bind fun _ => .pure _
    · exact .pure _
  | .literal _ _, _ => by
    rw [checkPattern]
    exact (checkLiteral_notes _ _ _).bind fun _ => .pure _
  | .range _ _ _ _, _ => by
    rw [checkPattern]
    exact (Emits.forIn (fun _ => checkLiteral_notes _ _ _) _).bind fun _ => .pure _
  | .tuple _ elems, _ => by
    rw [checkPattern]
    exact (freshMany_notes _).bind fun _ => (constrain_notes _ _ _ _).bind fun _ =>
      checkPatterns_notes cx elems _
  | .struct _ _ fields _, _ => by
    rw [checkPattern]
    dsimp only
    split
    · exact (report_notes _ _ rfl rfl).bind fun _ =>
        checkFields_notes cx (fun _ => fresh_notes) fields
    · refine (instantiateNominal_notes _ _).bind fun x => (constrain_notes _ _ _ _).bind fun _ =>
        (checkFields_notes (cx.enterParams x.2) (fieldType_notes _ _ _) fields).bind fun _ => ?_
      split
      · exact (checkMentioned_notes _ _ _ _).bind fun _ => .pure _
      · exact .pure _
  | .enum _ _ fields, _ => by
    rw [checkPattern]
    dsimp only
    split
    · exact (report_notes _ _ rfl rfl).bind fun _ => checkUnknown_notes cx fields
    · refine (instantiate_notes _).bind fun t => ?_
      split
      · refine (constrain_notes _ _ _ _).bind fun _ => ?_
        split
        · exact (report_notes _ _ rfl rfl).bind fun _ => checkPatterns_notes cx fields _
        · exact checkPatterns_notes cx fields _
      · refine (constrain_notes _ _ _ _).bind fun _ => ?_
        split
        · exact (report_notes _ _ rfl rfl).bind fun _ => .pure _
        · exact .pure _
  | .or _ [], _ => by
    rw [checkPattern]
    exact .pure _
  | .or _ (p :: rest), expected => by
    rw [checkPattern]
    exact (checkPattern_notes cx p expected).bind fun _ =>
      (checkAlternatives_notes cx rest expected _ _).bind fun _ => .pure _

theorem checkPatterns_notes (cx : Context) : (ps : List Pattern) → (ts : List Ty) →
    Notes (checkPatterns cx ps ts)
  | p :: ps, t :: ts => by
    rw [checkPatterns]
    exact (checkPattern_notes cx p t).bind fun _ =>
      (checkPatterns_notes cx ps ts).bind fun _ => .pure _
  | [], _ => by
    rw [checkPatterns]
    · exact .pure _
    · simp
  | _ :: _, [] => by
    rw [checkPatterns]
    · exact .pure _
    · simp

theorem checkUnknown_notes (cx : Context) : (ps : List Pattern) → Notes (checkUnknown cx ps)
  | [] => by
    rw [checkUnknown]
    exact .pure _
  | p :: ps => by
    rw [checkUnknown]
    exact fresh_notes.bind fun t => (checkPattern_notes cx p t).bind fun _ =>
      (checkUnknown_notes cx ps).bind fun _ => .pure _

theorem checkFields_notes (cx : Context) {type : Ident → Check Ty}
    (htype : ∀ name, Notes (type name)) : (fields : List FieldPattern) →
    Notes (checkFields cx type fields)
  | [] => by
    rw [checkFields]
    exact .pure _
  | ⟨_, name, some p⟩ :: r => by
    rw [checkFields]
    exact (htype name).bind fun t => (checkPattern_notes cx p t).bind fun _ =>
      (checkFields_notes cx htype r).bind fun _ => .pure _
  | ⟨_, name, none⟩ :: r => by
    rw [checkFields]
    exact (htype name).bind fun t => (Emits.pure _).bind fun _ =>
      (checkFields_notes cx htype r).bind fun _ => .pure _

theorem checkAlternatives_notes (cx : Context) : (ps : List Pattern) → (expected : Ty) →
    (span : Span) → (first : Table String Ty) →
    Notes (checkAlternatives cx ps expected span first)
  | [], _, _, _ => by
    rw [checkAlternatives]
    exact .pure _
  | p :: r, expected, span, first => by
    rw [checkAlternatives]
    exact (checkPattern_notes cx p expected).bind fun _ => (agree_notes _ _ _).bind fun _ =>
      checkAlternatives_notes cx r expected span first

end

end Patterns

section Inference

theorem defer_quiet (d : Deferred) : Quiet (defer d) :=
  .event (e := .defer d) trivial fun _ _ => rfl

theorem solvePending_quiet : Quiet solvePending := .event (e := .solve) trivial fun _ _ => rfl

theorem generalizeBinding_quiet (cx : Context) (t : Ty) : Quiet (generalizeBinding cx t) := by
  refine solvePending_quiet.bind fun o => ?_
  cases o with
  | some _ => exact .pure _
  | none => exact .read fun _ _ => rfl

theorem bindLet_quiet (cx : Context) (pattern : Pattern) (t : Ty) (hasValue mutable : Bool) :
    Quiet (bindLet cx pattern t hasValue mutable) := by
  unfold bindLet
  split
  · exact (generalizeBinding_quiet cx t).bind fun _ => .pure _
  · exact (checkPattern_notes cx pattern t).quiet.bind fun _ => .pure _

theorem lookupName_notes (cx : Context) (name : String) (missing : TypeFault) (span : Span)
    (h : missing.isRoutine = true) (h' : missing.isAmbiguous = false) :
    Notes (lookupName cx name missing span) := by
  unfold lookupName
  split
  · exact instantiate_notes _
  · exact reportFresh_notes _ _ h h'

theorem recordSite_quiet (cx : Context) (callee : Ty) (span : Span) :
    Quiet (recordSite cx callee span) := by
  unfold recordSite
  split
  · rename_i f _
    exact .event (e := .site ⟨callee, f.name, f.effects, span⟩) trivial fun _ _ => rfl
  · exact .pure _

theorem binaryType_notes (op : BinOp) (l r : Ty) (left right : Span) :
    Notes (binaryType op l r left right) := by
  unfold binaryType
  split
  · exact (constrain_notes _ _ _ _).bind fun _ => (constrain_notes _ _ _ _).bind fun _ => .pure _
  · exact (constrain_notes _ _ _ _).bind fun _ => .pure _

theorem callType_quiet (cx : Context) (callee : Ty) (args : List Ty) (span : Span) :
    Quiet (callType cx callee args span) :=
  fresh_notes.quiet.bind fun _ => (constrain_notes _ _ _ _).quiet.bind fun _ =>
    (recordSite_quiet cx callee span).bind fun _ => .pure _

theorem checkCall_quiet (cx : Context) (name : Option String) (callee : Ty) (args : List Ty)
    (span : Span) : Quiet (checkCall cx name callee args span) := by
  unfold checkCall
  split
  · split
    · exact (report_notes _ _ rfl rfl).quiet.bind fun _ => .pure _
    · exact callType_quiet cx _ args span
  · exact callType_quiet cx _ args span

theorem paramTypes_notes (sc : TypeScope) : (l : List Param) → Notes (paramTypes sc l)
  | [] => .pure _
  | p :: r => (lowerOr_notes sc fresh_notes p.ty).bind fun _ =>
    (paramTypes_notes sc r).bind fun _ => .pure _

theorem checkReturn_notes (cx : Context) (t : Ty) (span : Span) :
    Notes (checkReturn cx t span) := by
  unfold checkReturn
  split
  · exact constrain_notes _ _ _ _
  · exact report_notes _ _ rfl rfl

theorem checkBreak_notes (cx : Context) (t : Ty) (hasValue : Bool) (span : Span) :
    Notes (checkBreak cx t hasValue span) := by
  unfold checkBreak
  split
  · exact report_notes _ _ rfl rfl
  · exact constrain_notes _ _ _ _
  · split
    · exact report_notes _ _ rfl rfl
    · exact .pure _

theorem checkInit_notes (sc : TypeScope) (d : StructDef) (struct : String) (name : Ident)
    (t : Ty) (valueSpan : Span) : Notes (checkInit sc d struct name t valueSpan) := by
  unfold checkInit
  split
  · exact (lower_notes _ _).bind fun _ => constrain_notes _ _ _ _
  · exact report_notes _ _ rfl rfl

theorem checkComplete_notes (d : StructDef) (struct : String) (seen : List String)
    (span : Span) : Notes (checkComplete d struct seen span) := by
  unfold checkComplete
  refine .forM (fun f => ?_) _
  split
  · exact .pure _
  · exact report_notes _ _ rfl rfl

end Inference

section Declaring

theorem unlessDeclared_declaring (d : Declarations) (name : Ident) (add : Declarations) :
    Declaring (d.unlessDeclared name add) := by
  unfold Declarations.unlessDeclared
  split
  · exact (report_declaring _ _ rfl rfl).bind fun _ => .pure _
  · exact .pure _

theorem importNames_declaring : (env : Env) → (l : List String) → Declaring (importNames env l)
  | _, [] => .pure _
  | _, _ :: r => freshVar_declaring.bind fun _ => importNames_declaring _ r

theorem declareItem_declaring (d : Declarations × Env) :
    (item : Item) → Declaring (declareItem d item)
  | .typeAlias _ => (unlessDeclared_declaring _ _ _).bind fun _ => .pure _
  | .struct _ => (unlessDeclared_declaring _ _ _).bind fun _ => .pure _
  | .enum _ => (unlessDeclared_declaring _ _ _).bind fun _ => .pure _
  | .trait _ => .pure _
  | .imports _ => (importNames_declaring _ _).bind fun _ => .pure _
  | .function _ => .pure _
  | .const _ => .pure _
  | .impl _ => .pure _

theorem paramType_declaring (sc : TypeScope) (p : Param) : Declaring (paramType sc p) := by
  unfold paramType
  split
  · exact lower_declaring _ _
  · split
    · exact .pure _
    · exact fresh_declaring
  · exact fresh_declaring

theorem signature_declaring (sc : TypeScope) (d : FunctionDef) (outer : List (String × Ty)) :
    Declaring (signature sc d outer) :=
  (supply_declaring _ _).bind fun _ => (Emits.mapM (paramType_declaring _) _).bind fun _ =>
    (lowerOr_emits (fun _ => id) _ (.pure _) _).bind fun _ => .pure _

theorem declareMethods_declaring (sc : TypeScope) (typeName : String) (outer : List (String × Ty)) :
    (i : Interface) → (l : List FunctionDef) → Declaring (declareMethods sc typeName outer i l)
  | _, [] => .pure _
  | _, d :: r => (signature_declaring sc d outer).bind fun _ =>
    declareMethods_declaring sc typeName outer _ r

theorem declareVariants_declaring (sc : TypeScope) (enum : String) (vars : List Nat) (result : Ty) :
    (i : Interface) → (l : List VariantDef) → Declaring (declareVariants sc enum vars result i l)
  | _, [] => .pure _
  | _, v :: r => by
    unfold declareVariants
    split
    · exact (Emits.pure _).bind fun _ => declareVariants_declaring sc enum vars result _ r
    · exact (Emits.mapM (lower_declaring sc) _).bind fun _ => (Emits.pure _).bind fun _ =>
        declareVariants_declaring sc enum vars result _ r

theorem declareEnum_declaring (sc : TypeScope) (i : Interface) (d : EnumDef) :
    Declaring (declareEnum sc i d) :=
  (supply_declaring _ _).bind fun _ => declareVariants_declaring _ _ _ _ _ _

theorem inheritMethods_declaring (sc : TypeScope) (b : ImplBlock) (traitName typeName : String)
    (outer : List (String × Ty)) : (i : Interface) → (l : List FunctionDef) →
    Declaring (inheritMethods sc b traitName typeName outer i l)
  | _, [] => .pure _
  | i, d :: r => by
    have hrest : ∀ j, Declaring (inheritMethods sc b traitName typeName outer j r) :=
      fun j => inheritMethods_declaring sc b traitName typeName outer j r
    unfold inheritMethods
    split
    · exact hrest i
    · split
      · exact (declareMethods_declaring _ _ _ _ _).bind fun j => hrest j
      · exact (report_declaring _ _ rfl rfl).bind fun _ => hrest i

theorem implementTrait_declaring (sc : TypeScope) (b : ImplBlock) (typeName : String)
    (outer : List (String × Ty)) (i : Interface) (traitName : Ident) :
    Declaring (implementTrait sc b typeName outer i traitName) := by
  unfold implementTrait
  split
  · exact (report_declaring _ _ rfl rfl).bind fun _ => .pure _
  · refine (inheritMethods_declaring _ _ _ _ _ _ _).bind fun _ =>
      (Emits.forM (fun m => ?_) _).bind fun _ => .pure _
    split
    · exact .pure _
    · exact report_declaring _ _ rfl rfl

theorem declareImpl_declaring (sc : TypeScope) (i : Interface) (b : ImplBlock) :
    Declaring (declareImpl sc i b) := by
  unfold declareImpl
  refine (supply_declaring _ _).bind fun _ => (lower_declaring _ _).bind fun _ =>
    (declareMethods_declaring _ _ _ _ _).bind fun j => ?_
  split
  · exact (implementTrait_declaring _ _ _ _ _ _).bind fun _ => .pure _
  · exact (Emits.pure _).bind fun _ => .pure _

theorem declareTrait_declaring (sc : TypeScope) (i : Interface) (d : TraitDef) :
    Declaring (declareTrait sc i d) :=
  (supply_declaring _ _).bind fun _ => declareMethods_declaring _ _ _ _ _

theorem interfaceItem_declaring (sc : TypeScope) (i : Interface) : (item : Item) →
    Declaring (interfaceItem sc i item)
  | .function d => by
    simp only [interfaceItem]
    split
    · exact (report_declaring _ _ rfl rfl).bind fun _ => .pure _
    · exact (signature_declaring _ _ _).bind fun _ => .pure _
  | .const _ => (lower_declaring _ _).bind fun _ => .pure _
  | .enum _ => declareEnum_declaring _ _ _
  | .impl _ => declareImpl_declaring _ _ _
  | .trait _ => declareTrait_declaring _ _ _
  | .struct _ => .pure _
  | .typeAlias _ => .pure _
  | .imports _ => .pure _

theorem declareItem_notes (d : Declarations × Env) (item : Item) : Notes (declareItem d item) :=
  (declareItem_declaring d item).notes

theorem interfaceItem_notes (sc : TypeScope) (i : Interface) (item : Item) :
    Notes (interfaceItem sc i item) :=
  (interfaceItem_declaring sc i item).notes

end Declaring

end Sema
