import Sema.Syntax.Decode
import Sema.Syntax.Encode
import Sema.Proofs.Json.Encoding

/-!
# Programs read back from JSON

Every part of a program is encoded so that its reader gives it back: spans with and without a
file, identities, optional and defaulted fields, and every variant of types, literals,
patterns, expressions, statements and items. A literal that is not finite is written as
nothing, so the floating-point literals are taken from a class of finite numbers. From a tree
the program reads back whenever they are finite; from text, whenever they read back from their
own text and brackets nest no deeper than text allows.
-/

namespace Sema

open Json

/-! ## The floating-point literals of a program -/

def LiteralKind.EveryFloat (P : Binary64 → Prop) : LiteralKind → Prop
  | .float x => P x
  | _ => True

def Literal.EveryFloat (P : Binary64 → Prop) (l : Literal) : Prop := l.kind.EveryFloat P

mutual

def Pattern.EveryFloat (P : Binary64 → Prop) : Pattern → Prop
  | .wildcard _ | .ident .. => True
  | .literal _ value => value.EveryFloat P
  | .tuple _ elems => everyFloatPatterns P elems
  | .struct _ _ fields _ => everyFloatFields P fields
  | .enum _ _ fields => everyFloatPatterns P fields
  | .or _ alternatives => everyFloatPatterns P alternatives
  | .range _ start stop _ => (∀ l ∈ start, l.EveryFloat P) ∧ ∀ l ∈ stop, l.EveryFloat P

def everyFloatPatterns (P : Binary64 → Prop) : List Pattern → Prop
  | [] => True
  | p :: r => p.EveryFloat P ∧ everyFloatPatterns P r

def everyFloatFields (P : Binary64 → Prop) : List FieldPattern → Prop
  | [] => True
  | ⟨_, _, pattern⟩ :: r => everyFloatPattern P pattern ∧ everyFloatFields P r

def everyFloatPattern (P : Binary64 → Prop) : Option Pattern → Prop
  | none => True
  | some p => p.EveryFloat P

end

mutual

def Expr.EveryFloat (P : Binary64 → Prop) : Expr → Prop
  | ⟨_, _, kind⟩ => kind.EveryFloat P

def ExprKind.EveryFloat (P : Binary64 → Prop) : ExprKind → Prop
  | .literal lit => lit.EveryFloat P
  | .ident _ | .path _ => True
  | .binary _ left right => left.EveryFloat P ∧ right.EveryFloat P
  | .unary _ operand => operand.EveryFloat P
  | .call callee args => callee.EveryFloat P ∧ everyFloatExprs P args
  | .methodCall receiver _ args => receiver.EveryFloat P ∧ everyFloatExprs P args
  | .field base _ => base.EveryFloat P
  | .index base index => base.EveryFloat P ∧ index.EveryFloat P
  | .ifThen cond thenBranch elseBranch =>
    cond.EveryFloat P ∧ thenBranch.EveryFloat P ∧ everyFloatExpr P elseBranch
  | .matchOn scrutinee arms => scrutinee.EveryFloat P ∧ everyFloatArms P arms
  | .block body => body.EveryFloat P
  | .lambda _ _ body _ => body.EveryFloat P
  | .tuple elems => everyFloatExprs P elems
  | .array elems => everyFloatExprs P elems
  | .structLit _ fields base => everyFloatInits P fields ∧ everyFloatExpr P base
  | .cast e _ => e.EveryFloat P
  | .tryOp e => e.EveryFloat P
  | .await e => e.EveryFloat P
  | .whileLoop cond body => cond.EveryFloat P ∧ body.EveryFloat P
  | .loop body => body.EveryFloat P
  | .forLoop pattern iterable body =>
    pattern.EveryFloat P ∧ iterable.EveryFloat P ∧ body.EveryFloat P
  | .range start stop _ => everyFloatExpr P start ∧ everyFloatExpr P stop

def everyFloatExprs (P : Binary64 → Prop) : List Expr → Prop
  | [] => True
  | e :: r => e.EveryFloat P ∧ everyFloatExprs P r

def everyFloatExpr (P : Binary64 → Prop) : Option Expr → Prop
  | none => True
  | some e => e.EveryFloat P

def everyFloatArms (P : Binary64 → Prop) : List MatchArm → Prop
  | [] => True
  | ⟨_, pattern, guard, body⟩ :: r =>
    (pattern.EveryFloat P ∧ everyFloatExpr P guard ∧ body.EveryFloat P) ∧ everyFloatArms P r

def everyFloatInits (P : Binary64 → Prop) : List FieldInit → Prop
  | [] => True
  | ⟨_, _, value⟩ :: r => value.EveryFloat P ∧ everyFloatInits P r

def Block.EveryFloat (P : Binary64 → Prop) : Block → Prop
  | ⟨_, stmts, tail⟩ => everyFloatStmts P stmts ∧ everyFloatExpr P tail

def Stmt.EveryFloat (P : Binary64 → Prop) : Stmt → Prop
  | .letBind _ pattern _ value _ => pattern.EveryFloat P ∧ everyFloatExpr P value
  | .assign _ target value => target.EveryFloat P ∧ value.EveryFloat P
  | .expr e => e.EveryFloat P
  | .ret _ value => everyFloatExpr P value
  | .brk _ value => everyFloatExpr P value
  | .cont _ => True

def everyFloatStmts (P : Binary64 → Prop) : List Stmt → Prop
  | [] => True
  | s :: r => s.EveryFloat P ∧ everyFloatStmts P r

end

def FunctionDef.EveryFloat (P : Binary64 → Prop) (d : FunctionDef) : Prop :=
  (∀ c ∈ d.contracts, c.condition.EveryFloat P) ∧ ∀ b ∈ d.body, b.EveryFloat P

def Item.EveryFloat (P : Binary64 → Prop) : Item → Prop
  | .function d => d.EveryFloat P
  | .const d => d.value.EveryFloat P
  | .trait d => ∀ f ∈ d.methods, f.EveryFloat P
  | .impl d => ∀ f ∈ d.methods, f.EveryFloat P
  | .struct _ | .enum _ | .typeAlias _ | .imports _ => True

/-- `P` holds of every floating-point literal of the program. -/
def Program.EveryFloat (P : Binary64 → Prop) (p : Program) : Prop :=
  ∀ i ∈ p.items, i.EveryFloat P

/-! ## Every part encodes itself -/

/-- A class of finite numbers. -/
structure FiniteFloats where
  mem : Binary64 → Prop
  finite : ∀ {x}, mem x → x.isFinite = true

variable {Q : FiniteFloats}

theorem position_encodes (p : Position) :
    Encodes Q.mem p.toJson (fun n => Decode.position n p.toJson) p :=
  .record rfl (.field (uint32_encodes p.line) (.field (uint32_encodes p.column)
    (.defaulted (uint64_encodes p.offset) .done)))

theorem span_encodes (s : Span) : Encodes Q.mem s.toJson (fun n => Decode.span n s.toJson) s := by
  obtain ⟨file, start, stop⟩ := s
  cases file with
  | none =>
    exact .record rfl (.absent (.field (position_encodes start)
      (.field (position_encodes stop) .done)))
  | some file =>
    exact .record rfl (.optional (.present (str_encodes file) nofun)
      (.field (position_encodes start) (.field (position_encodes stop) .done)))

theorem ident_encodes (x : Ident) : Encodes Q.mem x.toJson (fun n => Decode.ident n x.toJson) x :=
  .record rfl (.field (span_encodes x.span) (.field (str_encodes x.node) .done))

theorem idents_encode (l : List Ident) :
    Encodes Q.mem (identsToJson l) (fun n => Decode.idents n (identsToJson l)) l :=
  list_encodes fun x _ => ident_encodes x

theorem strings_encode (l : List String) :
    Encodes Q.mem (.arr (l.map .str)) (fun n => Decode.strings n (.arr (l.map .str))) l :=
  list_encodes fun s _ => str_encodes s

theorem optStr_encodes (s : Option String) :
    Encodes Q.mem (optStr s) (fun _ => optional Value.str? (some (optStr s))) s :=
  option_encodes (fun _ => nofun) fun s _ => str_encodes s

theorem optUint64_encodes (o : Option UInt64) :
    Encodes Q.mem (.ofOption (o.map fun n => .nat n.toNat))
      (fun _ => optional Value.uint64? (some (.ofOption (o.map fun n => .nat n.toNat)))) o :=
  option_encodes (fun _ => nofun) fun n _ => uint64_encodes n

section

variable (m : Medium)

mutual

theorem typeExpr_encodes : (t : TypeExpr) →
    Encodes Q.mem t.toJson (fun n => Decode.typeExpr m n t.toJson) t
  | ⟨span, kind⟩ => .obj (.field (span_encodes span) (.field (typeKind_encodes kind) .done))

theorem typeKind_encodes : (k : TypeExprKind) →
    Encodes Q.mem k.toJson (fun n => Decode.typeKind m n k.toJson) k
  | .primitive p => .tagged (.map (name_encodes Primitive.ofName?_name p))
  | .path segments args => by
    have hargs := types_encode args
    -- Both media read the members of a payload alike, once it is known which of them it is.
    cases m <;> exact .tagged (.obj (.field (strings_encode segments)
      (.defaulted (.arr hargs) .done)))
  | .branded base brand => by
    have hbase := typeExpr_encodes base
    cases m <;> exact .tagged (.obj (.field hbase (.field (str_encodes brand) .done)))
  | .function params ret effects => by
    have hparams := types_encode params
    have hret := optType_encodes ret
    have heffects := effects_encode effects
    -- The encoder looks into the option, so its text is known only case by case.
    cases m <;> cases ret <;> exact .tagged (.obj (.field (.arr hparams) (.optional hret
      (.defaulted (.arr heffects) .done))))
  | .reference inner mutable lifetime => by
    have hinner := typeExpr_encodes inner
    cases m <;> exact .tagged (.obj (.field hinner (.defaulted (bool_encodes mutable)
      (.optional (optStr_encodes lifetime) .done))))
  | .tuple elems => .tagged (.map (.arr (types_encode elems)))
  | .array elem len => by
    have helem := typeExpr_encodes elem
    cases m <;> exact .tagged (.obj (.field helem (.optional (optUint64_encodes len) .done)))

theorem types_encode : (l : List TypeExpr) →
    EncodesElems Q.mem (typesToJson l) (fun n => (typesToJson l).mapM (Decode.typeExpr m n)) l
  | [] => .nil
  | t :: r => .cons (typeExpr_encodes t) (types_encode r)

theorem optType_encodes : (o : Option TypeExpr) →
    Encodes Q.mem (optType o) (fun n => optional (Decode.typeExpr m n) (some (optType o))) o
  | none => null_encodes
  | some ⟨span, kind⟩ => (typeExpr_encodes ⟨span, kind⟩).present nofun

theorem effect_encodes : (e : EffectExpr) →
    Encodes Q.mem e.toJson (fun n => Decode.effect m n e.toJson) e
  | ⟨span, kind, arg⟩ => by
    have harg := optType_encodes arg
    cases arg <;> exact .obj (.field (span_encodes span)
      (.field (name_encodes EffectKind.ofName?_name kind) (.optional harg .done)))

theorem effects_encode : (l : List EffectExpr) →
    EncodesElems Q.mem (effectsToJson l) (fun n => (effectsToJson l).mapM (Decode.effect m n)) l
  | [] => .nil
  | e :: r => .cons (effect_encodes e) (effects_encode r)

end

theorem literalKind_encodes (k : LiteralKind) (h : k.EveryFloat Q.mem) :
    Encodes Q.mem k.toJson (fun n => Decode.literalKind n k.toJson) k := by
  cases k with
  | int n => exact .tagged (.map (uint64_encodes n))
  | float x =>
    have hx : (LiteralKind.float x).toJson = .tagged "Float" (.float x) := by
      rw [LiteralKind.toJson, if_pos (Q.finite h)]
    rw [hx]
    exact .tagged ⟨h, fun _ _ => rfl⟩
  | str s => exact .tagged (.map (str_encodes s))
  | bool b => exact .tagged (.map (bool_encodes b))
  | char c => exact .tagged (.map (char_encodes c))
  | unit =>
    refine ⟨trivial, fun n _ => ?_⟩
    cases n with
    | zero => rfl
    | succ n => rfl

theorem literal_encodes (l : Literal) (h : l.EveryFloat Q.mem) :
    Encodes Q.mem l.toJson (fun n => Decode.literal n l.toJson) l :=
  .record rfl (.field (literalKind_encodes l.kind h) (.optional (optStr_encodes l.suffix) .done))

theorem optLiteral_encodes (o : Option Literal) (h : ∀ l ∈ o, l.EveryFloat Q.mem) :
    Encodes Q.mem (optLiteral o) (fun n => optional (Decode.literal n) (some (optLiteral o))) o :=
  option_encodes (fun _ => nofun) fun l hl => literal_encodes l (h l hl)

theorem Pattern.toJson_ne_null (p : Pattern) : p.toJson ≠ .null := by
  cases p <;> nofun

mutual

theorem pattern_encodes : (p : Pattern) → p.EveryFloat Q.mem →
    Encodes Q.mem p.toJson (fun n => Decode.pattern m n p.toJson) p
  | .wildcard span, _ => by
    cases m <;> exact .tagged (.obj (.only (span_encodes span)))
  | .ident span name mutable byRef, _ => by
    cases m <;> exact .tagged (.obj (.field (span_encodes span) (.field (str_encodes name)
      (.defaulted (bool_encodes mutable) (.defaulted (bool_encodes byRef) .done)))))
  | .literal span value, h => by
    cases m <;> exact .tagged (.obj (.field (span_encodes span)
      (.field (literal_encodes value h) .done)))
  | .tuple span elems, h => by
    have helems := patterns_encode elems h
    cases m <;> exact .tagged (.obj (.field (span_encodes span) (.field (.arr helems) .done)))
  | .struct span name fields rest, h => by
    have hfields := fieldPatterns_encode fields h
    cases m <;> exact .tagged (.obj (.field (span_encodes span) (.field (ident_encodes name)
      (.field (.arr hfields) (.defaulted (bool_encodes rest) .done)))))
  | .enum span path fields, h => by
    have hfields := patterns_encode fields h
    cases m <;> exact .tagged (.obj (.field (span_encodes span) (.field (idents_encode path)
      (.defaulted (.arr hfields) .done))))
  | .or span alternatives, h => by
    have halternatives := patterns_encode alternatives h
    cases m <;> exact .tagged (.obj (.field (span_encodes span)
      (.field (.arr halternatives) .done)))
  | .range span start stop inclusive, h => by
    cases m <;> exact .tagged (.obj (.field (span_encodes span)
      (.optional (optLiteral_encodes start h.1) (.optional (optLiteral_encodes stop h.2)
      (.defaulted (bool_encodes inclusive) .done)))))

theorem patterns_encode : (l : List Pattern) → everyFloatPatterns Q.mem l →
    EncodesElems Q.mem (patternsToJson l) (fun n => (patternsToJson l).mapM (Decode.pattern m n)) l
  | [], _ => .nil
  | p :: r, h => .cons (pattern_encodes p h.1) (patterns_encode r h.2)

theorem fieldPatterns_encode : (l : List FieldPattern) → everyFloatFields Q.mem l →
    EncodesElems Q.mem (fieldPatternsToJson l)
      (fun n => (fieldPatternsToJson l).mapM (Decode.fieldPattern m n)) l
  | [], _ => .nil
  | ⟨span, name, pattern⟩ :: r, h => by
    have hpattern := optPattern_encodes pattern h.1
    have hr := fieldPatterns_encode r h.2
    cases pattern <;> exact .cons (.obj (.field (span_encodes span) (.field (ident_encodes name)
      (.optional hpattern .done)))) hr

theorem optPattern_encodes : (o : Option Pattern) → everyFloatPattern Q.mem o →
    Encodes Q.mem (.ofOption (o.map Pattern.toJson))
      (fun n => optional (Decode.pattern m n) (some (.ofOption (o.map Pattern.toJson)))) o
  | none, _ => null_encodes
  | some p, h => (pattern_encodes p h).present p.toJson_ne_null

end

theorem param_encodes (p : Param) : Encodes Q.mem p.toJson (fun n => Decode.param m n p.toJson) p :=
  .record rfl (.field (span_encodes p.span) (.field (ident_encodes p.name)
    (.optional (optType_encodes m p.ty) (.defaulted (bool_encodes p.mutable) .done))))

theorem params_encode (l : List Param) :
    Encodes Q.mem (.arr (l.map Param.toJson))
      (fun n => list (Decode.param m) n (.arr (l.map Param.toJson))) l :=
  list_encodes fun p _ => param_encodes m p

mutual

theorem expr_encodes : (e : Expr) → e.EveryFloat Q.mem →
    Encodes Q.mem e.toJson (fun n => Decode.expr m n e.toJson) e
  | ⟨id, span, kind⟩, h => .obj (.defaulted (uint32_encodes id) (.field (span_encodes span)
      (.field (exprKind_encodes kind h) .done)))

theorem exprKind_encodes : (k : ExprKind) → k.EveryFloat Q.mem →
    Encodes Q.mem k.toJson (fun n => Decode.exprKind m n k.toJson) k
  | .literal lit, h => .tagged (.map (literal_encodes lit h))
  | .ident name, _ => .tagged (.map (str_encodes name))
  | .path segments, _ => .tagged (.map (idents_encode segments))
  | .binary op left right, h => by
    have hleft := expr_encodes left h.1
    have hright := expr_encodes right h.2
    cases m <;> exact .tagged (.obj (.field (name_encodes BinOp.ofName?_name op)
      (.field hleft (.field hright .done))))
  | .unary op operand, h => by
    have hoperand := expr_encodes operand h
    cases m <;> exact .tagged (.obj (.field (name_encodes UnaryOp.ofName?_name op)
      (.field hoperand .done)))
  | .call callee args, h => by
    have hcallee := expr_encodes callee h.1
    have hargs := exprs_encode args h.2
    cases m <;> exact .tagged (.obj (.field hcallee (.field (.arr hargs) .done)))
  | .methodCall receiver method args, h => by
    have hreceiver := expr_encodes receiver h.1
    have hargs := exprs_encode args h.2
    cases m <;> exact .tagged (.obj (.field hreceiver (.field (ident_encodes method)
      (.field (.arr hargs) .done))))
  | .field base field, h => by
    have hbase := expr_encodes base h
    cases m <;> exact .tagged (.obj (.field hbase (.field (ident_encodes field) .done)))
  | .index base index, h => by
    have hbase := expr_encodes base h.1
    have hindex := expr_encodes index h.2
    cases m <;> exact .tagged (.obj (.field hbase (.field hindex .done)))
  | .ifThen cond thenBranch elseBranch, h => by
    have hcond := expr_encodes cond h.1
    have hthen := block_encodes thenBranch h.2.1
    have helse := optExpr_encodes elseBranch h.2.2
    cases m <;> cases elseBranch <;>
      exact .tagged (.obj (.field hcond (.field hthen (.optional helse .done))))
  | .matchOn scrutinee arms, h => by
    have hscrutinee := expr_encodes scrutinee h.1
    have harms := arms_encode arms h.2
    cases m <;> exact .tagged (.obj (.field hscrutinee (.field (.arr harms) .done)))
  | .block body, h => .tagged (.map (block_encodes body h))
  | .lambda params ret body isMove, h => by
    have hbody := expr_encodes body h
    cases m <;> exact .tagged (.obj (.field (params_encode _ params)
      (.optional (optType_encodes _ ret) (.field hbody (.defaulted (bool_encodes isMove) .done)))))
  | .tuple elems, h => .tagged (.map (.arr (exprs_encode elems h)))
  | .array elems, h => .tagged (.map (.arr (exprs_encode elems h)))
  | .structLit name fields base, h => by
    have hfields := inits_encode fields h.1
    have hbase := optExpr_encodes base h.2
    cases m <;> cases base <;> exact .tagged (.obj (.field (ident_encodes name)
      (.field (.arr hfields) (.optional hbase .done))))
  | .cast e ty, h => by
    have he := expr_encodes e h
    cases m <;> exact .tagged (.obj (.field he (.field (typeExpr_encodes _ ty) .done)))
  | .tryOp e, h => .tagged (.map (expr_encodes e h))
  | .await e, h => .tagged (.map (expr_encodes e h))
  | .whileLoop cond body, h => by
    have hcond := expr_encodes cond h.1
    have hbody := block_encodes body h.2
    cases m <;> exact .tagged (.obj (.field hcond (.field hbody .done)))
  | .loop body, h => by
    have hbody := block_encodes body h
    cases m <;> exact .tagged (.obj (.only hbody))
  | .forLoop pattern iterable body, h => by
    have hiterable := expr_encodes iterable h.2.1
    have hbody := block_encodes body h.2.2
    cases m <;> exact .tagged (.obj (.field (pattern_encodes _ pattern h.1)
      (.field hiterable (.field hbody .done))))
  | .range start stop inclusive, h => by
    have hstart := optExpr_encodes start h.1
    have hstop := optExpr_encodes stop h.2
    cases m <;> cases start <;> cases stop <;> exact .tagged (.obj (.optional hstart
      (.optional hstop (.defaulted (bool_encodes inclusive) .done))))

theorem exprs_encode : (l : List Expr) → everyFloatExprs Q.mem l →
    EncodesElems Q.mem (exprsToJson l) (fun n => (exprsToJson l).mapM (Decode.expr m n)) l
  | [], _ => .nil
  | e :: r, h => .cons (expr_encodes e h.1) (exprs_encode r h.2)

theorem optExpr_encodes : (o : Option Expr) → everyFloatExpr Q.mem o →
    Encodes Q.mem (.ofOption (o.map Expr.toJson))
      (fun n => optional (Decode.expr m n) (some (.ofOption (o.map Expr.toJson)))) o
  | none, _ => null_encodes
  | some ⟨id, span, kind⟩, h => (expr_encodes ⟨id, span, kind⟩ h).present nofun

theorem arms_encode : (l : List MatchArm) → everyFloatArms Q.mem l →
    EncodesElems Q.mem (armsToJson l) (fun n => (armsToJson l).mapM (Decode.arm m n)) l
  | [], _ => .nil
  | ⟨span, pattern, guard, body⟩ :: r, h => by
    have hguard := optExpr_encodes guard h.1.2.1
    have hbody := expr_encodes body h.1.2.2
    have hr := arms_encode r h.2
    cases guard <;> exact .cons (.obj (.field (span_encodes span)
      (.field (pattern_encodes m pattern h.1.1) (.optional hguard (.field hbody .done))))) hr

theorem inits_encode : (l : List FieldInit) → everyFloatInits Q.mem l →
    EncodesElems Q.mem (initsToJson l) (fun n => (initsToJson l).mapM (Decode.init m n)) l
  | [], _ => .nil
  | ⟨span, name, value⟩ :: r, h =>
    .cons (.obj (.field (span_encodes span) (.field (ident_encodes name)
      (.field (expr_encodes value h.1) .done)))) (inits_encode r h.2)

theorem block_encodes : (b : Block) → b.EveryFloat Q.mem →
    Encodes Q.mem b.toJson (fun n => Decode.block m n b.toJson) b
  | ⟨span, stmts, tail⟩, h => by
    have hstmts := stmts_encode stmts h.1
    have htail := optExpr_encodes tail h.2
    cases tail <;> exact .obj (.field (span_encodes span) (.field (.arr hstmts)
      (.optional htail .done)))

theorem stmt_encodes : (s : Stmt) → s.EveryFloat Q.mem →
    Encodes Q.mem s.toJson (fun n => Decode.stmt m n s.toJson) s
  | .letBind span pattern ty value mutable, h => by
    have hvalue := optExpr_encodes value h.2
    cases value <;> exact .tagged (.obj (.field (span_encodes span)
      (.field (pattern_encodes m pattern h.1) (.optional (optType_encodes m ty)
      (.optional hvalue (.defaulted (bool_encodes mutable) .done))))))
  | .assign span target value, h =>
    .tagged (.obj (.field (span_encodes span) (.field (expr_encodes target h.1)
      (.field (expr_encodes value h.2) .done))))
  | .expr e, h => .tagged (.map (expr_encodes e h))
  | .ret span value, h => by
    have hvalue := optExpr_encodes value h
    cases value <;> exact .tagged (.obj (.field (span_encodes span) (.optional hvalue .done)))
  | .brk span value, h => by
    have hvalue := optExpr_encodes value h
    cases value <;> exact .tagged (.obj (.field (span_encodes span) (.optional hvalue .done)))
  | .cont span, _ => .tagged (.map (span_encodes span))

theorem stmts_encode : (l : List Stmt) → everyFloatStmts Q.mem l →
    EncodesElems Q.mem (stmtsToJson l) (fun n => (stmtsToJson l).mapM (Decode.stmt m n)) l
  | [], _ => .nil
  | s :: r, h => .cons (stmt_encodes s h.1) (stmts_encode r h.2)

end

theorem generic_encodes (g : GenericParam) :
    Encodes Q.mem g.toJson (fun n => Decode.generic n g.toJson) g :=
  .record rfl (.field (span_encodes g.span) (.field (ident_encodes g.name)
    (.defaulted (idents_encode g.bounds) .done)))

theorem generics_encode (l : List GenericParam) :
    Encodes Q.mem (genericsToJson l) (fun n => Decode.generics n (genericsToJson l)) l :=
  list_encodes fun g _ => generic_encodes g

theorem optIdent_encodes (o : Option Ident) :
    Encodes Q.mem (optIdent o) (fun n => optional (Decode.ident n) (some (optIdent o))) o :=
  option_encodes (fun _ => nofun) fun x _ => ident_encodes x

theorem contract_encodes (c : Contract) (h : c.condition.EveryFloat Q.mem) :
    Encodes Q.mem c.toJson (fun n => Decode.contract m n c.toJson) c :=
  .record rfl (.field (span_encodes c.span) (.field (name_encodes ContractKind.ofName?_name c.kind)
    (.field (expr_encodes m c.condition h) .done)))

theorem contracts_encode (l : List Contract) (h : ∀ c ∈ l, c.condition.EveryFloat Q.mem) :
    Encodes Q.mem (.arr (l.map Contract.toJson))
      (fun n => list (Decode.contract m) n (.arr (l.map Contract.toJson))) l :=
  list_encodes fun c hc => contract_encodes m c (h c hc)

theorem Block.toJson_ne_null (b : Block) : b.toJson ≠ .null := by
  obtain ⟨span, stmts, tail⟩ := b
  cases tail <;> nofun

theorem body_encodes (o : Option Block) (h : ∀ b ∈ o, b.EveryFloat Q.mem) :
    Encodes Q.mem (.ofOption (o.map Block.toJson))
      (fun n => optional (Decode.block m n) (some (.ofOption (o.map Block.toJson)))) o :=
  option_encodes Block.toJson_ne_null fun b hb => block_encodes m b (h b hb)

theorem function_encodes (d : FunctionDef) (h : d.EveryFloat Q.mem) :
    Encodes Q.mem d.toJson (fun n => Decode.function m n d.toJson) d :=
  .record rfl (.field (span_encodes d.span) (.field (ident_encodes d.name)
    (.defaulted (generics_encode d.generics) (.field (params_encode m d.params)
    (.optional (optType_encodes m d.ret) (.defaulted (.arr (effects_encode m d.effects))
    (.defaulted (contracts_encode m d.contracts h.1) (.optional (body_encodes m d.body h.2)
    (.defaulted (bool_encodes d.isAsync) .done)))))))))

theorem functions_encode (l : List FunctionDef) (h : ∀ d ∈ l, d.EveryFloat Q.mem) :
    Encodes Q.mem (functionsToJson l)
      (fun n => list (Decode.function m) n (functionsToJson l)) l :=
  list_encodes fun d hd => function_encodes m d (h d hd)

theorem field_encodes (d : FieldDef) :
    Encodes Q.mem d.toJson (fun n => Decode.field m n d.toJson) d :=
  .record rfl (.field (span_encodes d.span) (.field (ident_encodes d.name)
    (.field (typeExpr_encodes m d.ty) .done)))

theorem fields_encode (l : List FieldDef) :
    Encodes Q.mem (.arr (l.map FieldDef.toJson))
      (fun n => list (Decode.field m) n (.arr (l.map FieldDef.toJson))) l :=
  list_encodes fun d _ => field_encodes m d

theorem variant_encodes (d : VariantDef) :
    Encodes Q.mem d.toJson (fun n => Decode.variant m n d.toJson) d :=
  .record rfl (.field (span_encodes d.span) (.field (ident_encodes d.name)
    (.defaulted (.arr (types_encode m d.fields)) .done)))

theorem variants_encode (l : List VariantDef) :
    Encodes Q.mem (.arr (l.map VariantDef.toJson))
      (fun n => list (Decode.variant m) n (.arr (l.map VariantDef.toJson))) l :=
  list_encodes fun d _ => variant_encodes m d

theorem item_encodes (i : Item) (h : i.EveryFloat Q.mem) :
    Encodes Q.mem i.toJson (fun n => Decode.item m n i.toJson) i := by
  cases i with
  | function d => exact .tagged (.map (function_encodes m d h))
  | struct d =>
    exact .tagged (.map (.record rfl (.field (span_encodes d.span) (.field (ident_encodes d.name)
      (.defaulted (generics_encode d.generics) (.field (fields_encode m d.fields) .done))))))
  | enum d =>
    exact .tagged (.map (.record rfl (.field (span_encodes d.span) (.field (ident_encodes d.name)
      (.defaulted (generics_encode d.generics) (.field (variants_encode m d.variants) .done))))))
  | typeAlias d =>
    exact .tagged (.map (.record rfl (.field (span_encodes d.span) (.field (ident_encodes d.name)
      (.defaulted (generics_encode d.generics) (.field (typeExpr_encodes m d.target) .done))))))
  | const d =>
    exact .tagged (.map (.record rfl (.field (span_encodes d.span) (.field (ident_encodes d.name)
      (.field (typeExpr_encodes m d.ty) (.field (expr_encodes m d.value h) .done))))))
  | trait d =>
    exact .tagged (.map (.record rfl (.field (span_encodes d.span) (.field (ident_encodes d.name)
      (.defaulted (generics_encode d.generics) (.field (functions_encode m d.methods h)
      (.defaulted (idents_encode d.superTraits) .done)))))))
  | impl d =>
    exact .tagged (.map (.record rfl (.field (span_encodes d.span)
      (.defaulted (generics_encode d.generics) (.field (typeExpr_encodes m d.target)
      (.optional (optIdent_encodes d.traitName) (.field (functions_encode m d.methods h) .done)))))))
  | imports d =>
    exact .tagged (.map (.record rfl (.field (span_encodes d.span) (.field (idents_encode d.path)
      (.optional (optIdent_encodes d.rename) (.defaulted (idents_encode d.items) .done))))))

theorem items_encode (l : List Item) (h : ∀ i ∈ l, i.EveryFloat Q.mem) :
    Encodes Q.mem (.arr (l.map Item.toJson))
      (fun n => list (Decode.item m) n (.arr (l.map Item.toJson))) l :=
  list_encodes fun i hi => item_encodes m i (h i hi)

theorem program_encodes (p : Program) (h : p.EveryFloat Q.mem) :
    Encodes Q.mem p.toJson (fun n => Decode.program m n p.toJson) p :=
  .record rfl (.defaulted (span_encodes p.span) (.field (items_encode m p.items h) .done))

end

/-! ## Programs -/

/-- Every program reads back from its JSON: from the tree when its floating-point literals are
finite; from text, on one line or indented, when they also read back from their own text and
fewer than 128 brackets nest. -/
theorem program_reads_back (p : Program) (hfinite : p.EveryFloat fun x => x.isFinite = true) :
    Program.ofJson? p.toJson = some p ∧
    (p.EveryFloat ReadsBack → p.toJson.depth < 128 →
      Program.parse? p.toJson.compact = some p ∧ Program.parse? p.toJson.pretty = some p) := by
  constructor
  · have tree := program_encodes .tree p (Q := ⟨_, id⟩) hfinite
    exact tree.reads _ (Nat.le_refl _)
  · intro hfloats hdepth
    have text := program_encodes .text p (Q := ⟨ReadsBack, And.left⟩) hfloats
    have hread : Decode.program .text textDepth p.toJson = some p :=
      text.reads textDepth (Nat.le_of_lt_succ hdepth)
    constructor
    · rw [Program.parse?, parse?_compact text.plain]
      exact hread
    · rw [Program.parse?, parse?_pretty text.plain]
      exact hread

def half : Binary64 := ⟨0x3FE0000000000000⟩

theorem readsBack_half : ReadsBack half := by
  have hshortest : half.shortest = (5, -1) := by
    simp only [Binary64.shortest, Reader.length_repr]
    decide +kernel
  rw [readsBack_iff, Binary64.text, hshortest]
  decide +kernel

/-- A constant, and a function that tells small numbers from others by a range pattern. -/
def smallNumbers : Program where
  items :=
    let f64 : TypeExpr := ⟨.dummy, .primitive .f64⟩
    let arm (pattern : Pattern) (small : Bool) : MatchArm :=
      ⟨.dummy, pattern, none, ⟨0, .dummy, .literal ⟨.bool small, none⟩⟩⟩
    [.const ⟨.onLine 1 1 24, ⟨.dummy, "LIMIT"⟩, f64, ⟨7, .dummy, .literal ⟨.float half, none⟩⟩⟩,
      .function {
        span := { file := some "small \"numbers\"", start := { line := 2, offset := 25 } }
        name := ⟨.dummy, "small"⟩
        generics := []
        params := [⟨.dummy, ⟨.dummy, "x"⟩, some f64, false⟩]
        ret := some ⟨.dummy, .primitive .bool⟩
        effects := [⟨.dummy, .error, none⟩]
        contracts := []
        body := some ⟨.dummy, [], some ⟨1, .dummy, .matchOn ⟨2, .dummy, .ident "x"⟩
          [arm (.range .dummy none (some ⟨.float half, some "f64"⟩) true) true,
            arm (.wildcard .dummy) false]⟩⟩
        isAsync := false }]

theorem smallNumbers_everyFloat {P : Binary64 → Prop} (h : P half) :
    smallNumbers.EveryFloat P := by
  refine List.forall_mem_cons.2 ⟨h, List.forall_mem_singleton.2 ⟨nofun, ?_⟩⟩
  rintro _ ⟨⟩
  refine ⟨trivial, trivial, ⟨⟨nofun, ?_⟩, trivial, trivial⟩, ⟨trivial, trivial, trivial⟩, trivial⟩
  rintro _ ⟨⟩
  exact h

theorem smallNumbers_reads_back :
    smallNumbers.EveryFloat (fun x => x.isFinite = true) ∧ smallNumbers.EveryFloat ReadsBack ∧
    smallNumbers.toJson.depth < 128 ∧
    Program.ofJson? smallNumbers.toJson = some smallNumbers ∧
    Program.parse? smallNumbers.toJson.compact = some smallNumbers ∧
    Program.parse? smallNumbers.toJson.pretty = some smallNumbers := by
  have hfinite : smallNumbers.EveryFloat fun x => x.isFinite = true :=
    smallNumbers_everyFloat (by decide +kernel)
  have hfloats : smallNumbers.EveryFloat ReadsBack := smallNumbers_everyFloat readsBack_half
  have hdepth : smallNumbers.toJson.depth < 128 := by decide +kernel
  have back := program_reads_back smallNumbers hfinite
  exact ⟨hfinite, hfloats, hdepth, back.1, back.2 hfloats hdepth⟩

end Sema
