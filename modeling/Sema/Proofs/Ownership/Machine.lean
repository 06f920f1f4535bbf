import Mathlib.Logic.Relation
import Sema.Analysis
import Sema.Proofs.Ownership.AllPaths

/-!
# The ownership check, step by step

`ownExpr` and its companions say where a check ends. A `Checker` is what it has at hand on the
way: the state along the path, the binding that holds the borrows being taken, the faults and
the live ranges. It works off an agenda, one job at a time: a step changes one thing, or puts
the jobs for its parts in the place of a part of the program. States are put aside where paths
part and fetched again where they meet, and the holder is set aside around what it does not
hold; nothing but the agenda says that both are put back.

Main statement: working off an expression, block or statement ends where the check of it does,
with the holder as it was.
-/

namespace Sema

/-- What a check has at hand. One checker serves for any number of programs. -/
structure Checker extends Walk where
  trackLifetimes : Bool
  /-- The binding that will hold the borrows taken now. -/
  holder : Option Holder := none
  liveRanges : Table String (List LiveRange) := .empty

namespace Checker

def on (c : Checker) (w : Walk) : Checker := { c with toWalk := w }

def withFlow (c : Checker) (s : Flow) : Checker := { c with flow := s }

/-- Before a program: the findings of the one before are dropped, and nothing else. -/
def clear (c : Checker) : Checker := { c with faults := #[], liveRanges := .empty }

end Checker

/-- One change of the state along the path. -/
inductive Change where
  | push
  | pop
  | declare (name : String)
  | use (name : String) (span : Span)
  | move (name : String) (span : Span)
  | renew (name : String)
  | borrow (name : String) (kind : BorrowKind) (span : Span)
  | release
  | clear

def Change.apply (holder : Option Holder) : Change → Walk → Walk
  | push, w => w.onFlow .push
  | pop, w => w.onFlow .pop
  | declare name, w => w.onFlow (·.declare name)
  | use name span, w => w.use name span
  | move name span, w => w.onFlow (·.move name span)
  | renew name, w => w.onFlow (·.renew name)
  | borrow name kind span, w => w.borrow name ⟨kind, span, holder⟩
  | release, w => w.onFlow .releaseTemporaries
  | clear, w => w.onFlow .clearBorrows

inductive Job where
  | change (x : Change)
  /-- From now on this binding holds the borrows taken. -/
  | hold (holder : Option Holder)
  /-- A new state, without bindings. -/
  | restart
  /-- Go back to a state put aside. -/
  | restore (s : Flow)
  /-- Meet the path that ended in a state put aside. -/
  | merge (s : Flow)
  | expr (mode : Mode) (e : Expr)
  /-- The indices of a place. -/
  | indices (e : Expr)
  /-- The branches of a conditional, after its condition. -/
  | branches (mode : Mode) (thenBranch : Block) (elseBranch : Option Expr)
  | otherwise (mode : Mode) (before : Flow) (elseBranch : Option Expr)
  /-- The arms of a match, after its scrutinee. -/
  | select (mode : Mode) (arms : List MatchArm)
  /-- The arms to come, with the states at the ends of those before. -/
  | arms (mode : Mode) (before : Flow) (exits : List Flow) (rest : List MatchArm)
  | exit (mode : Mode) (before : Flow) (exits : List Flow) (rest : List MatchArm)
  /-- The body of a loop over a value, after the value. -/
  | iterate (pattern : Pattern) (body : Block)
  | block (mode : Mode) (b : Block)
  | stmt (s : Stmt)
  | function (name : String) (d : FunctionDef)
  | ranges (name : String) (d : FunctionDef)
  | item (i : Item)

def ifPresent (mode : Mode) (e : Option Expr) : List Job := (e.map (.expr mode)).toList

def declareJobs (names : List String) : List Job := names.map fun name => .change (.declare name)

/-- The jobs that an expression consists of. -/
def ExprKind.jobs (mode : Mode) (span : Span) (c : Checker) : ExprKind → List Job
  | .literal _ | .path _ => []
  | .ident name =>
    .change (.use name span) :: if mode = .move then [.change (.move name span)] else []
  | .unary op operand =>
    match op.borrowKind?, operand.root? with
    | some kind, some name => [.change (.borrow name kind span), .indices operand]
    | _, _ => [.expr .use operand]
  | .binary _ left right => [.expr .use left, .expr .use right]
  | .call callee args => .expr .use callee :: args.map (.expr .move)
  | .methodCall receiver _ args => .expr .use receiver :: args.map (.expr .move)
  | .field base _ => [.expr .use base]
  | .index base i => [.expr .use base, .expr .use i]
  | .ifThen cond thenBranch elseBranch => [.expr .use cond, .branches mode thenBranch elseBranch]
  | .matchOn scrutinee arms => [.expr .use scrutinee, .select mode arms]
  | .block body => [.block mode body]
  | .lambda params _ body isMove =>
    let names := params.map (·.name.node)
    let moves := if isMove then captures names body else []
    .hold none :: .change .push :: (declareJobs names ++
      .expr .move body :: .restore c.flow :: .hold c.holder ::
        moves.map fun name => .change (.move name span))
  | .tuple elems => elems.map (.expr .move)
  | .array elems => elems.map (.expr .move)
  | .structLit _ fields base => fields.map (fun f => .expr .move f.value) ++ ifPresent .move base
  | .cast e _ => [.expr mode e]
  | .tryOp e => [.expr mode e]
  | .await e => [.expr mode e]
  | .whileLoop cond body => [.expr .use cond, .block .use body, .merge c.flow]
  | .loop body => [.block .use body, .change .clear]
  | .forLoop pattern iterable body =>
    [.expr .move iterable, .change .release, .iterate pattern body]
  | .range start stop _ => ifPresent .use start ++ ifPresent .use stop

def ExprKind.indexJobs : ExprKind → List Job
  | .field base _ => [.indices base]
  | .index base i => [.indices base, .expr .use i]
  | _ => []

def MatchArm.jobs (mode : Mode) : MatchArm → List Job
  | ⟨_, pattern, guard, body⟩ => .change .push :: (declareJobs pattern.names ++
      (ifPresent .use guard ++ [.expr mode body, .change .pop]))

/-- The statements of a block hold nothing for the context; its value does. -/
def Block.jobs (mode : Mode) (c : Checker) (b : Block) : List Job :=
  .hold none :: .change .push :: (b.stmts.map .stmt ++
    .hold c.holder :: (ifPresent mode b.tail ++ [.change .pop]))

def Stmt.jobs (c : Checker) : Stmt → List Job
  | .letBind _ pattern _ value _ =>
    (match value with
      | some e => [.hold (letHolder c.flow pattern e), .expr .move e, .hold c.holder]
      | none => []) ++ (declareJobs pattern.names ++ [.change .release])
  | .assign _ target value =>
    match target.asIdent with
    | some name => [.hold (assignHolder c.flow name value), .expr .move value, .hold c.holder,
        .change (.renew name), .change .release]
    | none => [.expr .move value, .expr .use target, .change .release]
  | .expr e => [.expr .use e, .change .release]
  | .ret _ value => ifPresent .move value ++ [.change .release]
  | .brk _ value => ifPresent .move value ++ [.change .release]
  | .cont _ => [.change .release]

def contractJobs (l : List Contract) : List Job :=
  l.flatMap fun x => [.expr .use x.condition, .change .release]

/-- A function starts from a state and a holder of its own. -/
def FunctionDef.jobs (name : String) (d : FunctionDef) : List Job :=
  match d.body with
  | none => []
  | some body =>
    .restart :: .hold none :: (declareJobs (d.params.map (·.name.node)) ++
      (contractJobs d.contracts ++ [.block .move body, .ranges name d]))

/-- A constant starts from a state of its own. -/
def Item.jobs : Item → List Job
  | .const d => [.restart, .expr .use d.value]
  | item => item.namedFunctions.map fun f => .function f.1 f.2

/-- One step: the jobs that take the place of this one, and the checker after it. -/
def Job.step : Job → Checker → List Job × Checker
  | change x, c => ([], c.on (x.apply c.holder c.toWalk))
  | hold h, c => ([], { c with holder := h })
  | restart, c => ([], c.withFlow .initial)
  | restore s, c => ([], c.withFlow s)
  | merge s, c => ([], c.withFlow (s.join c.flow))
  | expr mode ⟨_, span, kind⟩, c => (kind.jobs mode span c, c)
  | indices ⟨_, _, kind⟩, c => (kind.indexJobs, c)
  | branches mode thenBranch elseBranch, c =>
    ([block mode thenBranch, otherwise mode c.flow elseBranch], c)
  | otherwise mode before elseBranch, c =>
    (ifPresent mode elseBranch ++ [merge c.flow], c.withFlow before)
  | select mode l, c => ([arms mode c.flow [] l], c)
  | arms _ before exits [], c =>
    ([], c.withFlow ((Flow.joinAll exits).getD before.clearBorrows))
  | arms mode before exits (arm :: r), c =>
    (arm.jobs mode ++ [exit mode before exits r], c.withFlow before)
  | exit mode before exits l, c => ([arms mode before (exits ++ [c.flow]) l], c)
  | iterate pattern body, c =>
    (change .push :: (declareJobs pattern.names ++
      [block .use body, change .pop, merge c.flow]), c)
  | block mode b, c => (b.jobs mode c, c)
  | stmt s, c => (s.jobs c, c)
  | function name d, c => (d.jobs name, c)
  | ranges name d, c =>
    ([], if c.trackLifetimes then
      { c with liveRanges := c.liveRanges.insert name d.liveRanges } else c)
  | item i, c => (i.jobs, c)

/-- A checker at work: what it still has to do, and what it has at hand. -/
structure Checking where
  agenda : List Job
  checker : Checker

namespace Checking

/-- The next step; none when there is nothing left to do. -/
def step : Checking → Option Checking
  | ⟨[], _⟩ => none
  | ⟨j :: r, c⟩ => some ⟨(j.step c).1 ++ r, (j.step c).2⟩

abbrev Reaches : Checking → Checking → Prop :=
  Relation.ReflTransGen fun a b => a.step = some b

/-- After a number of steps, or at the end before that. -/
def after : Nat → Checking → Checking
  | 0, x => x
  | n + 1, x =>
    match x.step with
    | some y => y.after n
    | none => x

theorem reaches_after (n : Nat) (x : Checking) : Reaches x (x.after n) := by
  induction n generalizing x with
  | zero => exact .refl
  | succ n ih =>
    unfold after
    split
    · exact .head ‹_› (ih _)
    · exact .refl

end Checking

open Checking (Reaches)

/-- A new checker that has checked these programs one after the other. -/
inductive Checker.Used (trackLifetimes : Bool) : List Program → Checker → Prop
  | new : Used trackLifetimes [] { trackLifetimes }
  | check {history : List Program} {c d : Checker} (p : Program)
      (used : Used trackLifetimes history c)
      (checks : Reaches ⟨p.items.map .item, c.clear⟩ ⟨[], d⟩) :
      Used trackLifetimes (history ++ [p]) d

/-- Whatever else is on the agenda, the checker works off the jobs `l` and has `d` then. -/
def Runs (l : List Job) (c d : Checker) : Prop := ∀ r, Reaches ⟨l ++ r, c⟩ ⟨r, d⟩

namespace Runs

variable {l m : List Job} {j : Job} {c d e : Checker}

theorem nil (c : Checker) : Runs [] c c := fun _ => .refl

theorem append (h : Runs l c d) (k : Runs m d e) : Runs (l ++ m) c e := by
  intro r
  rw [List.append_assoc]
  exact (h (m ++ r)).trans (k r)

theorem cons (h : Runs [j] c d) (k : Runs l d e) : Runs (j :: l) c e := append h k

theorem step (h : Runs (j.step c).1 (j.step c).2 d) : Runs [j] c d :=
  fun r => .head rfl (h r)

/-- A job that only changes what the checker has at hand. -/
theorem single (h : j.step c = ([], d)) : Runs [j] c d := by
  refine step ?_
  rw [h]
  exact nil d

theorem change (x : Change) (c : Checker) :
    Runs [.change x] c (c.on (x.apply c.holder c.toWalk)) := single rfl

theorem hold (h : Option Holder) (c : Checker) : Runs [.hold h] c { c with holder := h } :=
  single rfl

theorem restore (s : Flow) (c : Checker) : Runs [.restore s] c (c.withFlow s) := single rfl

theorem declares (names : List String) (c : Checker) :
    Runs (declareJobs names) c (c.on (c.toWalk.onFlow (·.declareAll names))) := by
  induction names generalizing c with
  | nil => exact nil c
  | cons name names ih => exact cons (change (.declare name) c) (ih _)

theorem moves (names : List String) (span : Span) (c : Checker) :
    Runs (names.map fun name => .change (.move name span)) c
      (c.on (c.toWalk.onFlow (·.moveAll names span))) := by
  induction names generalizing c with
  | nil => exact nil c
  | cons name names ih => exact cons (change (.move name span) c) (ih _)

/-- A frame that starts with names of its own. -/
theorem enter {names : List String}
    (h : Runs l (c.on (c.toWalk.onFlow fun s => s.push.declareAll names)) d) :
    Runs (.change .push :: (declareJobs names ++ l)) c d :=
  (change .push c).cons ((declares names _).append h)

end Runs

mutual

theorem expr_runs (mode : Mode) : (e : Expr) → (c : Checker) →
    Runs [.expr mode e] c (c.on (ownExpr c.holder mode e c.toWalk))
  | ⟨_, span, kind⟩, c => .step (kind_runs mode span kind c)

theorem kind_runs (mode : Mode) (span : Span) : (k : ExprKind) → (c : Checker) →
    Runs (k.jobs mode span c) c (c.on (ownKind c.holder mode span k c.toWalk))
  | .literal _, c => .nil c
  | .path _, c => .nil c
  | .ident name, c => by
    cases mode with
    | use => exact .change (.use name span) c
    | move => exact (Runs.change (.use name span) c).cons (.change (.move name span) _)
  | .unary op operand, c => by
    have hown : ownKind c.holder mode span (.unary op operand) c.toWalk =
        match op.borrowKind?, operand.root? with
        | some kind, some name =>
          ownIndices c.holder operand (c.toWalk.borrow name ⟨kind, span, c.holder⟩)
        | _, _ => ownExpr c.holder .use operand c.toWalk := rfl
    rw [hown, ExprKind.jobs]
    cases op.borrowKind? with
    | none => exact expr_runs .use operand c
    | some kind =>
      cases operand.root? with
      | none => exact expr_runs .use operand c
      | some name =>
        exact (Runs.change (.borrow name kind span) c).cons (indices_runs operand _)
  | .binary _ left right, c => (expr_runs .use left c).cons (expr_runs .use right _)
  | .call callee args, c => (expr_runs .use callee c).cons (values_runs args _)
  | .methodCall receiver _ args, c => (expr_runs .use receiver c).cons (values_runs args _)
  | .field base _, c => expr_runs .use base c
  | .index base i, c => (expr_runs .use base c).cons (expr_runs .use i _)
  | .ifThen cond thenBranch (some other), c => by
    refine (expr_runs .use cond c).cons (.step ?_)
    exact (block_runs mode thenBranch _).cons
      (.step ((expr_runs mode other _).append (.single rfl)))
  | .ifThen cond thenBranch none, c => by
    refine (expr_runs .use cond c).cons (.step ?_)
    exact (block_runs mode thenBranch _).cons (.step (.single rfl))
  | .matchOn scrutinee l, c => by
    refine (expr_runs .use scrutinee c).cons (.step ?_)
    exact arms_runs mode l _ [] _
  | .block body, c => block_runs mode body c
  | .lambda params _ body isMove, c => by
    let names := params.map (·.name.node)
    let inside := { c with holder := none }.on (c.toWalk.onFlow fun s => s.push.declareAll names)
    have hback := (Runs.restore c.flow (inside.on (ownExpr none .move body inside.toWalk))).cons
      (.hold c.holder _)
    refine (Runs.hold none c).cons (.enter ((expr_runs .move body inside).cons (hback.append ?_)))
    cases isMove with
    | true => exact .moves _ span _
    | false => exact .nil _
  | .tuple elems, c => values_runs elems c
  | .array elems, c => values_runs elems c
  | .structLit _ fields (some base), c => (inits_runs fields c).append (expr_runs .move base _)
  | .structLit _ fields none, c => (inits_runs fields c).append (.nil _)
  | .cast e _, c => expr_runs mode e c
  | .tryOp e, c => expr_runs mode e c
  | .await e, c => expr_runs mode e c
  | .whileLoop cond body, c =>
    (expr_runs .use cond c).cons ((block_runs .use body _).cons (.single rfl))
  | .loop body, c => (block_runs .use body c).cons (.change .clear _)
  | .forLoop pattern iterable body, c => by
    refine (expr_runs .move iterable c).cons ((Runs.change .release _).cons (.step (.enter ?_)))
    exact (block_runs .use body _).cons ((Runs.change .pop _).cons (.single rfl))
  | .range (some start) (some stop) _, c =>
    (expr_runs .use start c).append (expr_runs .use stop _)
  | .range (some start) none _, c => (expr_runs .use start c).append (.nil _)
  | .range none (some stop) _, c => (Runs.nil c).append (expr_runs .use stop c)
  | .range none none _, c => .nil c

theorem values_runs : (l : List Expr) → (c : Checker) →
    Runs (l.map (.expr .move)) c (c.on (ownAll c.holder l c.toWalk))
  | [], c => .nil c
  | e :: r, c => (expr_runs .move e c).cons (values_runs r _)

theorem inits_runs : (l : List FieldInit) → (c : Checker) →
    Runs (l.map fun f => .expr .move f.value) c (c.on (ownInits c.holder l c.toWalk))
  | [], c => .nil c
  | ⟨_, _, value⟩ :: r, c => (expr_runs .move value c).cons (inits_runs r _)

/-- The other arms, after those that ended in the states `exits`. -/
theorem arms_runs (mode : Mode) : (l : List MatchArm) → (before : Flow) → (exits : List Flow) →
    (c : Checker) →
    Runs [.arms mode before exits l] c (c.on { (ownArms c.holder mode before l c.toWalk).2 with
      flow := (Flow.joinAll (exits ++ (ownArms c.holder mode before l c.toWalk).1)).getD
        before.clearBorrows })
  | [], before, exits, c => by
    rw [ownArms, List.append_nil]
    exact .single rfl
  | arm :: r, before, exits, c => by
    let after := ownArm c.holder mode arm { c.toWalk with flow := before }
    have hrest := arms_runs mode r before (exits ++ [after.flow]) (c.on after)
    rw [ownArms_cons]
    rw [List.append_assoc] at hrest
    exact .step ((arm_runs mode arm (c.withFlow before)).append (.step hrest))

theorem arm_runs (mode : Mode) : (arm : MatchArm) → (c : Checker) →
    Runs (arm.jobs mode) c (c.on (ownArm c.holder mode arm c.toWalk))
  | ⟨_, _, some g, body⟩, _ =>
    .enter ((expr_runs .use g _).cons ((expr_runs mode body _).cons (.change .pop _)))
  | ⟨_, _, none, body⟩, _ => .enter ((expr_runs mode body _).cons (.change .pop _))

theorem indices_runs : (e : Expr) → (c : Checker) →
    Runs [.indices e] c (c.on (ownIndices c.holder e c.toWalk))
  | ⟨_, _, kind⟩, c => .step (indexKind_runs kind c)

theorem indexKind_runs (k : ExprKind) (c : Checker) :
    Runs k.indexJobs c (c.on (ownIndicesKind c.holder k c.toWalk)) := by
  cases k with
  | field base _ => exact indices_runs base c
  | index base i => exact (indices_runs base c).cons (expr_runs .use i _)
  | _ => exact .nil c

theorem block_runs (mode : Mode) : (b : Block) → (c : Checker) →
    Runs [.block mode b] c (c.on (ownBlock c.holder mode b c.toWalk))
  | ⟨_, stmts, tail⟩, c => by
    let inside := { c with holder := none }.on (c.toWalk.onFlow .push)
    have hstmts := stmts_runs stmts inside rfl
    have hback := Runs.hold c.holder (inside.on (ownStmts stmts inside.toWalk))
    refine .step ((Runs.hold none c).cons ((Runs.change .push _).cons (hstmts.append
      (hback.cons ?_))))
    cases tail with
    | some e => exact (expr_runs mode e _).append (.change .pop _)
    | none => exact .change .pop _

/-- Statements run while nothing is held for the context. -/
theorem stmts_runs : (l : List Stmt) → (c : Checker) → c.holder = none →
    Runs (l.map .stmt) c (c.on (ownStmts l c.toWalk))
  | [], c, _ => .nil c
  | s :: r, c, h => (stmt_runs s c h).cons (stmts_runs r _ h)

theorem stmt_runs : (s : Stmt) → (c : Checker) → c.holder = none →
    Runs [.stmt s] c (c.on ((ownStmt s c.toWalk).onFlow (·.releaseTemporaries)))
  | .letBind _ pattern _ (some e) _, c, _ => by
    have hvalue := expr_runs .move e { c with holder := letHolder c.flow pattern e }
    refine .step ((Runs.hold _ c).cons (hvalue.cons ((Runs.hold c.holder _).cons ?_)))
    exact (Runs.declares pattern.names _).append (.change .release _)
  | .letBind _ pattern _ none _, c, _ =>
    .step ((Runs.declares pattern.names c).append (.change .release _))
  | .assign sp target value, c, h => by
    have hown : ownStmt (.assign sp target value) c.toWalk =
        match target.asIdent with
        | some name => (ownExpr (assignHolder c.flow name value) .move value c.toWalk).onFlow
            (·.renew name)
        | none => ownExpr none .use target (ownExpr none .move value c.toWalk) := rfl
    have hjobs : (Job.stmt (.assign sp target value)).step c =
        (match target.asIdent with
          | some name => [.hold (assignHolder c.flow name value), .expr .move value,
              .hold c.holder, .change (.renew name), .change .release]
          | none => [.expr .move value, .expr .use target, .change .release], c) := rfl
    refine .step ?_
    rw [hown, hjobs]
    cases target.asIdent with
    | some name =>
      have hvalue := expr_runs .move value { c with holder := assignHolder c.flow name value }
      exact (Runs.hold _ c).cons (hvalue.cons ((Runs.hold c.holder _).cons
        ((Runs.change (.renew name) _).cons (.change .release _))))
    | none =>
      obtain ⟨w, track, _, ranges⟩ := c
      cases h
      exact (expr_runs .move value _).cons ((expr_runs .use target _).cons (.change .release _))
  | .expr e, ⟨_, _, none, _⟩, rfl => .step ((expr_runs .use e _).cons (.change .release _))
  | .ret _ (some e), ⟨_, _, none, _⟩, rfl =>
    .step ((expr_runs .move e _).cons (.change .release _))
  | .ret _ none, c, _ => .step (.change .release c)
  | .brk _ (some e), ⟨_, _, none, _⟩, rfl =>
    .step ((expr_runs .move e _).cons (.change .release _))
  | .brk _ none, c, _ => .step (.change .release c)
  | .cont _, c, _ => .step (.change .release c)

end

end Sema
