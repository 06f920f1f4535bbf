import Sema.Proofs.Ownership.Temporaries

/-!
# What a `move` lambda takes

The free names of an expression are those of its identifiers that no binder around them in the
expression binds: a lambda binds its parameters in its body, a `for` and an arm of a match bind
their patterns in what they guard, and a `let` binds its pattern in the statements after it. The
check does not look for binders. It takes every name that the body mentions, other than the
parameters.

`Accounts` compares the two lists for all forms of expressions at once: what is free is mentioned,
and what is mentioned is free or bound inside.

Main statement: a `move` lambda takes the visible bindings of the names that it mentions and leaves
every other binding as it was. These are the bindings of its free names, unless a binder in the body
has the name of a binding around the lambda.
-/

namespace Sema

open Checking (Reaches)

/-- The names that are not among those bound. -/
def without (bound names : List String) : List String := names.filter fun x => !bound.contains x

theorem mem_without {x : String} {bound names : List String} :
    x ∈ without bound names ↔ x ∈ names ∧ x ∉ bound := by
  simp [without]

mutual

/-- The names that occur free, from left to right. -/
def Expr.free : Expr → List String
  | ⟨_, _, kind⟩ => kind.free

def ExprKind.free : ExprKind → List String
  | .literal _ | .path _ => []
  | .ident name => [name]
  | .binary _ left right => left.free ++ right.free
  | .unary _ operand => operand.free
  | .call callee args => callee.free ++ freeAll args
  | .methodCall receiver _ args => receiver.free ++ freeAll args
  | .field base _ => base.free
  | .index base index => base.free ++ index.free
  | .ifThen cond thenBranch elseBranch =>
    cond.free ++ thenBranch.free ++ freeOption elseBranch
  | .matchOn scrutinee arms => scrutinee.free ++ freeArms arms
  | .block body => body.free
  | .lambda params _ body _ => without (params.map (·.name.node)) body.free
  | .tuple elems => freeAll elems
  | .array elems => freeAll elems
  | .structLit _ fields base => freeInits fields ++ freeOption base
  | .cast e _ => e.free
  | .tryOp e => e.free
  | .await e => e.free
  | .whileLoop cond body => cond.free ++ body.free
  | .loop body => body.free
  | .forLoop pattern iterable body => iterable.free ++ without pattern.names body.free
  | .range start stop _ => freeOption start ++ freeOption stop

def freeOption : Option Expr → List String
  | some e => e.free
  | none => []

def freeAll : List Expr → List String
  | [] => []
  | e :: r => e.free ++ freeAll r

def freeArms : List MatchArm → List String
  | [] => []
  | ⟨_, pattern, guard, body⟩ :: r =>
    without pattern.names (freeOption guard ++ body.free) ++ freeArms r

def freeInits : List FieldInit → List String
  | [] => []
  | ⟨_, _, value⟩ :: r => value.free ++ freeInits r

def Block.free : Block → List String
  | ⟨_, stmts, tail⟩ => freeStmts stmts (freeOption tail)

def Stmt.free : Stmt → List String
  | .letBind _ _ _ value _ => freeOption value
  | .assign _ target value => target.free ++ value.free
  | .expr e => e.free
  | .ret _ value => freeOption value
  | .brk _ value => freeOption value
  | .cont _ => []

/-- The free names of statements, and of what follows them in their block. -/
def freeStmts : List Stmt → List String → List String
  | [], rest => rest
  | s :: r, rest => s.free ++ without s.declared (freeStmts r rest)

end

mutual

/-- The names that some binder in the expression binds. -/
def Expr.bound : Expr → List String
  | ⟨_, _, kind⟩ => kind.bound

def ExprKind.bound : ExprKind → List String
  | .literal _ | .path _ | .ident _ => []
  | .binary _ left right => left.bound ++ right.bound
  | .unary _ operand => operand.bound
  | .call callee args => callee.bound ++ boundAll args
  | .methodCall receiver _ args => receiver.bound ++ boundAll args
  | .field base _ => base.bound
  | .index base index => base.bound ++ index.bound
  | .ifThen cond thenBranch elseBranch =>
    cond.bound ++ thenBranch.bound ++ boundOption elseBranch
  | .matchOn scrutinee arms => scrutinee.bound ++ boundArms arms
  | .block body => body.bound
  | .lambda params _ body _ => params.map (·.name.node) ++ body.bound
  | .tuple elems => boundAll elems
  | .array elems => boundAll elems
  | .structLit _ fields base => boundInits fields ++ boundOption base
  | .cast e _ => e.bound
  | .tryOp e => e.bound
  | .await e => e.bound
  | .whileLoop cond body => cond.bound ++ body.bound
  | .loop body => body.bound
  | .forLoop pattern iterable body => iterable.bound ++ (pattern.names ++ body.bound)
  | .range start stop _ => boundOption start ++ boundOption stop

def boundOption : Option Expr → List String
  | some e => e.bound
  | none => []

def boundAll : List Expr → List String
  | [] => []
  | e :: r => e.bound ++ boundAll r

def boundArms : List MatchArm → List String
  | [] => []
  | ⟨_, pattern, guard, body⟩ :: r =>
    (pattern.names ++ (boundOption guard ++ body.bound)) ++ boundArms r

def boundInits : List FieldInit → List String
  | [] => []
  | ⟨_, _, value⟩ :: r => value.bound ++ boundInits r

def Block.bound : Block → List String
  | ⟨_, stmts, tail⟩ => boundStmts stmts (boundOption tail)

def Stmt.bound : Stmt → List String
  | .letBind _ _ _ value _ => boundOption value
  | .assign _ target value => target.bound ++ value.bound
  | .expr e => e.bound
  | .ret _ value => boundOption value
  | .brk _ value => boundOption value
  | .cont _ => []

/-- The names bound in statements and in what follows them. -/
def boundStmts : List Stmt → List String → List String
  | [], rest => rest
  | s :: r, rest => s.bound ++ (s.declared ++ boundStmts r rest)

end

/-- The names of the identifiers among some expressions. -/
def mentions (nodes : List Expr) : List String := nodes.filterMap Expr.asIdent

theorem mentions_append (l m : List Expr) : mentions (l ++ m) = mentions l ++ mentions m :=
  List.filterMap_append

theorem mem_captures {x : String} {params : List String} {body : Expr} :
    x ∈ captures params body ↔ x ∈ mentions body.nodes ∧ x ∉ params := by
  simp [captures, mentions]

/-- What is free is mentioned, and what is mentioned is free or bound. -/
structure Accounts (free : List String) (nodes : List Expr) (bound : List String) : Prop where
  mentioned : ∀ x ∈ free, x ∈ mentions nodes
  accounted : ∀ x ∈ mentions nodes, x ∈ free ∨ x ∈ bound

namespace Accounts

variable {free free' bound bound' : List String} {nodes nodes' : List Expr}

theorem nil : Accounts [] [] [] := ⟨nofun, nofun⟩

theorem append (h : Accounts free nodes bound) (h' : Accounts free' nodes' bound') :
    Accounts (free ++ free') (nodes ++ nodes') (bound ++ bound') where
  mentioned x hx := by
    rw [mentions_append]
    rcases List.mem_append.mp hx with hx | hx
    · exact List.mem_append_left _ (h.mentioned x hx)
    · exact List.mem_append_right _ (h'.mentioned x hx)
  accounted x hx := by
    rw [mentions_append] at hx
    rcases List.mem_append.mp hx with hx | hx
    · exact (h.accounted x hx).imp (List.mem_append_left _) (List.mem_append_left _)
    · exact (h'.accounted x hx).imp (List.mem_append_right _) (List.mem_append_right _)

/-- A binder hides its names. -/
theorem hide (names : List String) (h : Accounts free nodes bound) :
    Accounts (without names free) nodes (names ++ bound) where
  mentioned x hx := h.mentioned x (mem_without.mp hx).1
  accounted x hx := by
    by_cases hname : x ∈ names
    · exact .inr (List.mem_append_left _ hname)
    · rcases h.accounted x hx with hfree | hbound
      · exact .inl (mem_without.mpr ⟨hfree, hname⟩)
      · exact .inr (List.mem_append_right _ hbound)

/-- A node that is no identifier mentions nothing itself. -/
theorem inside {e : Expr} (he : e.asIdent = none) (h : Accounts free nodes bound) :
    Accounts free (e :: nodes) bound := by
  have hmentions : mentions (e :: nodes) = mentions nodes := List.filterMap_cons_none he
  constructor
  · rw [hmentions]
    exact h.mentioned
  · rw [hmentions]
    exact h.accounted

end Accounts

mutual

theorem Expr.accounts : (e : Expr) → Accounts e.free e.nodes e.bound
  | ⟨id, span, kind⟩ => ExprKind.accounts id span kind

/-- The node itself counts, since it may be an identifier. -/
theorem ExprKind.accounts (id : ExprId) (span : Span) :
    (kind : ExprKind) → Accounts kind.free (⟨id, span, kind⟩ :: kind.nodes) kind.bound
  | .ident _ => ⟨fun _ hx => hx, fun _ hx => .inl hx⟩
  | .literal _ | .path _ => .inside rfl .nil
  | .binary _ left right => .inside rfl (left.accounts.append right.accounts)
  | .unary _ operand => .inside rfl operand.accounts
  | .call callee args => .inside rfl (callee.accounts.append (accountsAll args))
  | .methodCall receiver _ args => .inside rfl (receiver.accounts.append (accountsAll args))
  | .field base _ => .inside rfl base.accounts
  | .index base index => .inside rfl (base.accounts.append index.accounts)
  | .ifThen cond thenBranch elseBranch => by
    have hno := accountsOption elseBranch
    have hall := (cond.accounts.append thenBranch.accounts).append hno
    cases elseBranch <;> exact .inside rfl hall
  | .matchOn scrutinee arms => .inside rfl (scrutinee.accounts.append (accountsArms arms))
  | .block body => .inside rfl body.accounts
  | .lambda _ _ body _ => .inside rfl (.hide _ body.accounts)
  | .tuple elems => .inside rfl (accountsAll elems)
  | .array elems => .inside rfl (accountsAll elems)
  | .structLit _ fields base => by
    have hall := (accountsInits fields).append (accountsOption base)
    cases base <;> exact .inside rfl hall
  | .cast e _ => .inside rfl e.accounts
  | .tryOp e => .inside rfl e.accounts
  | .await e => .inside rfl e.accounts
  | .whileLoop cond body => .inside rfl (cond.accounts.append body.accounts)
  | .loop body => .inside rfl body.accounts
  | .forLoop _ iterable body => .inside rfl (iterable.accounts.append (.hide _ body.accounts))
  | .range start stop _ => by
    have hall := (accountsOption start).append (accountsOption stop)
    cases start <;> cases stop <;> exact .inside rfl hall

theorem accountsOption : (o : Option Expr) →
    Accounts (freeOption o) (match o with | some e => e.nodes | none => []) (boundOption o)
  | none => .nil
  | some e => e.accounts

theorem accountsAll : (l : List Expr) → Accounts (freeAll l) (nodesAll l) (boundAll l)
  | [] => .nil
  | e :: r => e.accounts.append (accountsAll r)

theorem accountsArms : (l : List MatchArm) → Accounts (freeArms l) (nodesArms l) (boundArms l)
  | [] => .nil
  | ⟨_, pattern, guard, body⟩ :: r => by
    have harm := Accounts.hide pattern.names ((accountsOption guard).append body.accounts)
    have hall := harm.append (accountsArms r)
    cases guard <;> exact hall

theorem accountsInits : (l : List FieldInit) →
    Accounts (freeInits l) (nodesInits l) (boundInits l)
  | [] => .nil
  | ⟨_, _, value⟩ :: r => value.accounts.append (accountsInits r)

theorem Block.accounts : (b : Block) → Accounts b.free b.nodes b.bound
  | ⟨_, stmts, tail⟩ => by
    have hall := accountsStmts stmts (accountsOption tail)
    cases tail <;> exact hall

theorem Stmt.accounts : (s : Stmt) → Accounts s.free s.nodes s.bound
  | .letBind _ _ _ value _ => by
    have hvalue := accountsOption value
    cases value <;> exact hvalue
  | .assign _ target value => target.accounts.append value.accounts
  | .expr e => e.accounts
  | .ret _ value => by
    have hvalue := accountsOption value
    cases value <;> exact hvalue
  | .brk _ value => by
    have hvalue := accountsOption value
    cases value <;> exact hvalue
  | .cont _ => .nil

/-- A statement hides the names it declares from all that follows, the end of the block too. -/
theorem accountsStmts {free bound : List String} {nodes : List Expr} : (l : List Stmt) →
    Accounts free nodes bound →
    Accounts (freeStmts l free) (nodesStmts l ++ nodes) (boundStmts l bound)
  | [], h => h
  | s :: r, h => by
    have hrest := Accounts.hide s.declared (accountsStmts r h)
    have hall := s.accounts.append hrest
    rwa [← List.append_assoc] at hall

end

namespace Flow

variable {s t : Flow}

theorem depthOf_modify (s : Flow) (name : String) (g : Binding → Binding) (x : String) :
    (s.modify name g).depthOf x = s.depthOf x := by
  obtain ⟨frames⟩ := s
  simp only [modify, depthOf]
  induction frames with
  | nil => rfl
  | cons f l ih =>
    have hlength : (modifyIn g name l).length = l.length := depth_modify ⟨l⟩ name g
    by_cases hf : f.contains name = true
    · have hsame : (Bindings.modify g name f).contains x = f.contains x := by
        simp only [Table.contains, get?_modify]
        split <;> simp
      simp [modifyIn, depthIn, hf, hsame]
    · simp [modifyIn, depthIn, hf, hlength, ih]

theorem binding?_moveAll (s : Flow) (names : List String) (span : Span) (d : Nat) (x : String) :
    (s.moveAll names span).binding? d x =
      if s.depthOf x = some d ∧ x ∈ names then (s.binding? d x).map (·.move span)
      else s.binding? d x := by
  induction names generalizing s with
  | nil => simp [moveAll]
  | cons name names ih =>
    have hstep : s.moveAll (name :: names) span = (s.move name span).moveAll names span := rfl
    have htwice : ∀ b : Binding, (b.move span).move span = b.move span := by
      intro b
      cases hmoved : b.moved <;> simp [Binding.move, hmoved]
    rw [hstep, ih, move, depthOf_modify, binding?_modify]
    by_cases hd : s.depthOf x = some d
    · by_cases hname : x = name
      · subst hname
        by_cases hx : x ∈ names <;> simp [hd, hx, Function.comp_def, htwice]
      · simp [hd, hname]
    · by_cases hname : x = name
      · subst hname
        simp [hd]
      · simp [hd, hname]

/-- The name leads to the frame at depth `d`, and its binding there has not been moved. -/
def Owns (s : Flow) (d : Nat) (x : String) : Prop :=
  s.depthOf x = some d ∧ ∃ b, s.binding? d x = some b ∧ b.moved = false

instance (s : Flow) (d : Nat) (x : String) : Decidable (s.Owns d x) :=
  decidable_of_iff (s.depthOf x = some d ∧ (s.binding? d x).any (!·.moved) = true) (by
    cases h : s.binding? d x <;> simp [Owns, h])

/-- Of the bindings at `names`, those that are visible and not yet moved become moved at `span`.
Every other binding is as it was. -/
structure Takes (s : Flow) (names : List String) (span : Span) (t : Flow) : Prop where
  depth : t.depth = s.depth
  taken : ∀ d x b, s.depthOf x = some d → s.binding? d x = some b → b.moved = false →
    x ∈ names → t.binding? d x = some { b with moved := true, movedAt := some span }
  kept : ∀ d x, ¬ (s.Owns d x ∧ x ∈ names) → t.binding? d x = s.binding? d x

theorem takes_moveAll (s : Flow) (names : List String) (span : Span) :
    s.Takes names span (s.moveAll names span) where
  depth := by
    unfold moveAll
    induction names generalizing s with
    | nil => rfl
    | cons name names ih => rw [List.foldl_cons, ih, move, depth_modify]
  taken d x b hd hb howned hx := by
    rw [binding?_moveAll, if_pos ⟨hd, hx⟩, hb]
    simp [Binding.move, howned]
  kept d x h := by
    rw [binding?_moveAll]
    split
    · rename_i hx
      cases hb : s.binding? d x with
      | none => rfl
      | some b =>
        cases hmoved : b.moved with
        | false => exact absurd ⟨⟨hx.1, b, hb, hmoved⟩, hx.2⟩ h
        | true =>
          -- The first move counts.
          have hmove : b.move span = b := if_pos hmoved
          simp [hmove]
    · rfl

/-- Fewer names say the same as long as no binding is taken on account of the others. -/
theorem Takes.narrow {names fewer : List String} {span : Span} (h : s.Takes names span t)
    (hsub : ∀ x ∈ fewer, x ∈ names) :
    s.Takes fewer span t ↔ ∀ d, ∀ x ∈ names, s.Owns d x → x ∈ fewer := by
  constructor
  · intro hfewer d x hx howns
    by_contra hnot
    have hkept := hfewer.kept d x fun hboth => hnot hboth.2
    obtain ⟨hd, b, hb, howned⟩ := howns
    rw [h.taken d x b hd hb howned hx, hb] at hkept
    have hmoved := congrArg Binding.moved (Option.some.inj hkept)
    rw [howned] at hmoved
    cases hmoved
  · intro hall
    refine ⟨h.depth, fun d x b hd hb howned hx => h.taken d x b hd hb howned (hsub x hx), ?_⟩
    exact fun d x hnot => h.kept d x fun hboth => hnot ⟨hboth.1, hall d x hboth.2 hboth.1⟩

end Flow

/-- A `move` lambda takes every visible binding that its body mentions, but for its parameters, and
leaves the others as they were. Every free name is among those mentioned, and a name that is not
free has a binder inside. So the lambda takes just what its free names stand for if and only if
each visible binding that it mentions, and that has not been moved, is the meaning of a free
name. -/
theorem move_lambda_takes_mentions (holder : Option Holder) (mode : Mode) (id : ExprId)
    (span : Span) (params : List Param) (ret : Option TypeExpr) (body : Expr) (w : Walk) :
    let e : Expr := ⟨id, span, .lambda params ret body true⟩
    let mentioned := captures (params.map (·.name.node)) body
    let after := ownExpr holder mode e w
    w.flow.Takes mentioned span after.flow ∧
      (∀ x ∈ e.free, x ∈ mentioned) ∧ (∀ x ∈ mentioned, x ∈ e.free ∨ x ∈ body.bound) ∧
      (w.flow.Takes e.free span after.flow ↔
        ∀ d, ∀ x ∈ mentioned, w.flow.Owns d x → x ∈ e.free) := by
  intro e mentioned after
  have htakes : w.flow.Takes mentioned span after.flow := w.flow.takes_moveAll mentioned span
  have hbody := body.accounts
  have hfree : ∀ x ∈ e.free, x ∈ mentioned := by
    intro x hx
    obtain ⟨hx, hparam⟩ := mem_without.mp hx
    exact mem_captures.mpr ⟨hbody.mentioned x hx, hparam⟩
  have hbound : ∀ x ∈ mentioned, x ∈ e.free ∨ x ∈ body.bound := by
    intro x hx
    obtain ⟨hx, hparam⟩ := mem_captures.mp hx
    exact (hbody.accounted x hx).imp_left fun hx => mem_without.mpr ⟨hx, hparam⟩
  exact ⟨htakes, hfree, hbound, htakes.narrow hfree⟩

namespace Shadowed

open Build

/-- `move || { let name = value; name }`. -/
def taker (name : String) (value : Expr) : Expr :=
  expr (.lambda [] none (expr (.block (block [letIdent name value] (some (ident name))))) true)

/-- `let x = 1; let g = taker; take(x);`. -/
def program (taker : Expr) : Program where
  items := [.function (functionOf "f" [.body (block [letIdent "x" (int 1), letIdent "g" taker,
    .expr (call (ident "take") [ident "x"])] none)])]

def start (taker : Expr) : Checking :=
  ⟨(program taker).items.map .item, Checker.clear { trackLifetimes := false }⟩

/-- Where the check comes to the lambda. -/
def arrived (taker : Expr) : Checking := (start taker).after 15

/-- `move || { let y = x; y }`. -/
def plain : Expr := taker "y" (ident "x")

/-- `move || { let x = 2; x }`. -/
def hidden : Expr := taker "x" (int 2)

end Shadowed

/-- A lambda whose own binding has another name takes `x`, which is free in it, and only that. -/
theorem plain_takes_free_name :
    let w := (Shadowed.arrived Shadowed.plain).checker.toWalk
    Shadowed.plain.free = ["x"] ∧ w.flow.Owns 1 "x" ∧
      w.flow.Takes ["x"] .dummy (ownExpr none .move Shadowed.plain w).flow := by
  intro w
  obtain ⟨-, -, -, hexact⟩ := move_lambda_takes_mentions none .move 0 .dummy [] none
    (Build.expr (.block (Build.block [Build.letIdent "y" (Build.ident "x")]
      (some (Build.ident "y"))))) w
  refine ⟨rfl, by decide, hexact.mpr fun d x hx howns => ?_⟩
  have hmentioned : x ∈ ["x", "y"] := hx
  rcases List.mem_pair.mp hmentioned with rfl | rfl
  · exact List.mem_singleton_self _
  · cases howns.1

/-- A lambda that binds an `x` of its own takes the `x` around it as well, and the use of that one
is refused. -/
theorem hidden_takes_outer_binding :
    let x := Shadowed.arrived Shadowed.hidden
    Reaches (Shadowed.start Shadowed.hidden) x ∧
      (∃ r, x.agenda = .expr .move Shadowed.hidden :: r) ∧
      Shadowed.hidden.free = [] ∧ x.checker.flow.Owns 1 "x" ∧
      (∃ c, Runs [.expr .move Shadowed.hidden] x.checker c ∧
        c.flow.binding? 1 "x" = some { moved := true, movedAt := some .dummy }) ∧
      (Shadowed.program Shadowed.hidden).ownershipFaults.map (·.node) =
        [.useMoved "x" (some .dummy)] := by
  intro x
  have hrun := expr_runs .move Shadowed.hidden x.checker
  exact ⟨Checking.reaches_after 15 _, ⟨_, rfl⟩, rfl, by decide, ⟨_, hrun, by decide⟩, rfl⟩

end Sema
