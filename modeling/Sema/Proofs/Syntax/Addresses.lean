import Mathlib
import Sema.Proofs.Syntax.Numbering
import Sema.Syntax.Build

/-!
# Where the expressions of a program stand

An address leads from the root of a tree to an expression in it: into which part, into which part
of that, and so on, where the parts of a node are numbered as they are written. `at?` looks up what
stands at an address, and so says what there is in a tree without walking over it.

Main statement: the nodes that the walk meets are the expressions at all the addresses of the
program, in lexicographic order. An address comes after those that it extends, so this puts parents
before children, and no address is met twice. Relabelling meets the same nodes in the same order,
and numbering makes their identities `0, 1, 2, …` and changes nothing else.
-/

namespace Sema

/-- A way into a tree: the number of a part, the number of a part of that part, and so on. -/
abbrev Address := List Nat

/-- What stands at an address inside of something with these parts. -/
def within (parts : List (Address → Option Expr)) : Address → Option Expr
  | [] => none
  | i :: q => parts[i]?.bind (· q)

mutual

/-- The expression at an address of the expression. -/
def Expr.at? : Expr → Address → Option Expr
  | ⟨id, span, kind⟩, [] => some ⟨id, span, kind⟩
  | ⟨_, _, kind⟩, i :: q => within kind.parts (i :: q)

def ExprKind.parts : ExprKind → List (Address → Option Expr)
  | .literal _ | .ident _ | .path _ => []
  | .binary _ left right => [left.at?, right.at?]
  | .unary _ operand => [operand.at?]
  | .call callee args => [callee.at?, within (partsAll args)]
  | .methodCall receiver _ args => [receiver.at?, within (partsAll args)]
  | .field base _ => [base.at?]
  | .index base index => [base.at?, index.at?]
  | .ifThen cond thenBranch elseBranch =>
    [cond.at?, within thenBranch.parts, optionAt? elseBranch]
  | .matchOn scrutinee arms => [scrutinee.at?, within (partsArms arms)]
  | .block body => body.parts
  | .lambda _ _ body _ => [body.at?]
  | .tuple elems => partsAll elems
  | .array elems => partsAll elems
  | .structLit _ fields base => [within (partsInits fields), optionAt? base]
  | .cast e _ => [e.at?]
  | .tryOp e => [e.at?]
  | .await e => [e.at?]
  | .whileLoop cond body => [cond.at?, within body.parts]
  | .loop body => body.parts
  | .forLoop _ iterable body => [iterable.at?, within body.parts]
  | .range start stop _ => [optionAt? start, optionAt? stop]

def optionAt? : Option Expr → Address → Option Expr
  | some e => e.at?
  | none => fun _ => none

def partsAll : List Expr → List (Address → Option Expr)
  | [] => []
  | e :: r => e.at? :: partsAll r

def partsArms : List MatchArm → List (Address → Option Expr)
  | [] => []
  | ⟨_, _, guard, body⟩ :: r => within [optionAt? guard, body.at?] :: partsArms r

def partsInits : List FieldInit → List (Address → Option Expr)
  | [] => []
  | ⟨_, _, value⟩ :: r => value.at? :: partsInits r

def Block.parts : Block → List (Address → Option Expr)
  | ⟨_, stmts, tail⟩ => [within (partsStmts stmts), optionAt? tail]

def Stmt.parts : Stmt → List (Address → Option Expr)
  | .letBind _ _ _ value _ => [optionAt? value]
  | .assign _ target value => [target.at?, value.at?]
  | .expr e => [e.at?]
  | .ret _ value => [optionAt? value]
  | .brk _ value => [optionAt? value]
  | .cont _ => []

def partsStmts : List Stmt → List (Address → Option Expr)
  | [] => []
  | s :: r => within s.parts :: partsStmts r

end

/-- The contracts of a function, then its body. -/
def FunctionDef.parts (d : FunctionDef) : List (Address → Option Expr) :=
  [within (d.contracts.map fun c => c.condition.at?),
    match d.body with
    | some b => within b.parts
    | none => fun _ => none]

def Item.parts : Item → List (Address → Option Expr)
  | .function d => d.parts
  | .const d => [d.value.at?]
  | .trait d => d.methods.map fun m => within m.parts
  | .impl d => d.methods.map fun m => within m.parts
  | .struct _ | .enum _ | .typeAlias _ | .imports _ => []

/-- The expression at an address of the program, if there is one. -/
def Program.at? (p : Program) : Address → Option Expr :=
  within (p.items.map fun i => within i.parts)

/-- The addresses of the program at which an expression stands. -/
def Program.addresses (p : Program) : Set Address := {q | (p.at? q).isSome = true}

/-- The list holds what stands at all the addresses, in the order of the addresses. -/
def Lists (stands : Address → Option Expr) (l : List Expr) : Prop :=
  ∃ places : List Address, places.Pairwise (· < ·) ∧
    (∀ q, q ∈ places ↔ (stands q).isSome = true) ∧ places.map stands = l.map some

/-- The same address where one more part comes first. -/
def Address.shifted : Address → Address
  | [] => []
  | i :: q => (i + 1) :: q

section Within

variable {f : Address → Option Expr} {fs : List (Address → Option Expr)}

theorem within_shifted : (q : Address) → within (f :: fs) q.shifted = within fs q
  | [] => rfl
  | _ :: _ => rfl

theorem Address.shifted_lt {q r : Address} (h : q < r) : q.shifted < r.shifted := by
  cases q with
  | nil =>
    cases r with
    | nil => exact absurd h (lt_irrefl _)
    | cons j r => exact List.nil_lt_cons _ _
  | cons i q =>
    cases r with
    | nil => exact absurd h (List.not_lt_nil _)
    | cons j r => simpa [Address.shifted, List.cons_lt_cons_iff] using h

end Within

namespace Lists

variable {f g h : Address → Option Expr} {fs : List (Address → Option Expr)} {l m n : List Expr}

theorem of_eq (hf : Lists f l) (hl : l = m) : Lists f m := hl ▸ hf

theorem nowhere : Lists (fun _ => none) [] := ⟨[], .nil, by simp, rfl⟩

theorem nil : Lists (within []) [] :=
  ⟨[], .nil, fun q => by cases q <;> simp [within], rfl⟩

/-- The addresses of the first part come before those of the others. -/
theorem cons (hf : Lists f l) (hfs : Lists (within fs) m) : Lists (within (f :: fs)) (l ++ m) := by
  obtain ⟨first, hfirst, hmem, hmap⟩ := hf
  obtain ⟨rest, hrest, hmem', hmap'⟩ := hfs
  refine ⟨first.map (0 :: ·) ++ rest.map Address.shifted, ?_, fun q => ?_, ?_⟩
  · refine List.pairwise_append.mpr ⟨?_, ?_, ?_⟩
    · exact List.pairwise_map.mpr (hfirst.imp List.cons_lt_cons_self.mpr)
    · exact List.pairwise_map.mpr (hrest.imp Address.shifted_lt)
    · intro q hq r hr
      obtain ⟨q, -, rfl⟩ := List.mem_map.mp hq
      obtain ⟨r, hin, rfl⟩ := List.mem_map.mp hr
      cases r with
      | nil => exact absurd ((hmem' []).mp hin) (by simp [within])
      | cons i r => exact List.cons_lt_cons_iff.mpr (.inl i.succ_pos)
  · rw [List.mem_append, List.mem_map, List.mem_map]
    constructor
    · rintro (⟨q, hq, rfl⟩ | ⟨q, hq, rfl⟩)
      · exact (hmem q).mp hq
      · rw [within_shifted]
        exact (hmem' q).mp hq
    · intro hq
      match q, hq with
      | 0 :: q, hq => exact .inl ⟨q, (hmem q).mpr hq, rfl⟩
      | (i + 1) :: q, hq => exact .inr ⟨i :: q, (hmem' (i :: q)).mpr hq, rfl⟩
  · rw [List.map_append, List.map_append, List.map_map, List.map_map, ← hmap, ← hmap']
    exact congrArg₂ (· ++ ·) rfl (List.map_congr_left fun q _ => within_shifted q)

/-- Something with one part, with two, and with three. -/
theorem one (hf : Lists f l) : Lists (within [f]) l := (hf.cons nil).of_eq (List.append_nil l)

theorem two (hf : Lists f l) (hg : Lists g m) : Lists (within [f, g]) (l ++ m) := hf.cons hg.one

theorem three (hf : Lists f l) (hg : Lists g m) (hh : Lists h n) :
    Lists (within [f, g, h]) (l ++ m ++ n) :=
  (hf.cons (hg.two hh)).of_eq (List.append_assoc l m n).symm

theorem map {α : Type} {part : α → Address → Option Expr} {view : α → List Expr}
    (hpart : ∀ a, Lists (part a) (view a)) (l : List α) :
    Lists (within (l.map part)) (l.flatMap view) := by
  induction l with
  | nil => exact nil
  | cons a l ih => exact (hpart a).cons ih

/-- An expression has the empty address, which comes before those of its parts. -/
theorem node {e : Expr} (hkind : Lists (within e.kind.parts) l) : Lists e.at? (e :: l) := by
  obtain ⟨id, span, kind⟩ := e
  obtain ⟨places, hsorted, hmem, hmap⟩ := hkind
  have hinside : ∀ q ∈ places, ∃ i r, q = i :: r := by
    intro q hq
    cases q with
    | nil => exact absurd ((hmem []).mp hq) (by simp [within])
    | cons i r => exact ⟨i, r, rfl⟩
  refine ⟨[] :: places, List.pairwise_cons.mpr ⟨fun q hq => ?_, hsorted⟩, fun q => ?_, ?_⟩
  · obtain ⟨i, r, rfl⟩ := hinside q hq
    exact List.nil_lt_cons i r
  · cases q with
    | nil => simp [Expr.at?]
    | cons i q => simpa [Expr.at?] using hmem (i :: q)
  · rw [List.map_cons, List.map_cons, ← hmap]
    refine congrArg₂ List.cons rfl (List.map_congr_left fun q hq => ?_)
    obtain ⟨i, r, rfl⟩ := hinside q hq
    rfl

end Lists

mutual

theorem Expr.lists : (e : Expr) → Lists e.at? e.nodes
  | ⟨_, _, kind⟩ => .node (kind.lists)

theorem ExprKind.lists : (k : ExprKind) → Lists (within k.parts) k.nodes
  | .literal _ => .nil
  | .ident _ => .nil
  | .path _ => .nil
  | .binary _ left right => left.lists.two right.lists
  | .unary _ operand => operand.lists.one
  | .call callee args => callee.lists.two (lists_all args)
  | .methodCall receiver _ args => receiver.lists.two (lists_all args)
  | .field base _ => base.lists.one
  | .index base index => base.lists.two index.lists
  | .ifThen cond thenBranch (some other) => cond.lists.three thenBranch.lists other.lists
  | .ifThen cond thenBranch none => cond.lists.three thenBranch.lists .nowhere
  | .matchOn scrutinee arms => scrutinee.lists.two (lists_arms arms)
  | .block body => body.lists
  | .lambda _ _ body _ => body.lists.one
  | .tuple elems => lists_all elems
  | .array elems => lists_all elems
  | .structLit _ fields (some base) => (lists_inits fields).two base.lists
  | .structLit _ fields none => (lists_inits fields).two .nowhere
  | .cast e _ => e.lists.one
  | .tryOp e => e.lists.one
  | .await e => e.lists.one
  | .whileLoop cond body => cond.lists.two body.lists
  | .loop body => body.lists
  | .forLoop _ iterable body => iterable.lists.two body.lists
  | .range (some start) (some stop) _ => start.lists.two stop.lists
  | .range (some start) none _ => start.lists.two .nowhere
  | .range none (some stop) _ => Lists.nowhere.two stop.lists
  | .range none none _ => Lists.nowhere.two .nowhere

theorem lists_all : (l : List Expr) → Lists (within (partsAll l)) (nodesAll l)
  | [] => .nil
  | e :: r => e.lists.cons (lists_all r)

theorem lists_arms : (l : List MatchArm) → Lists (within (partsArms l)) (nodesArms l)
  | [] => .nil
  | ⟨_, _, some guard, body⟩ :: r => (guard.lists.two body.lists).cons (lists_arms r)
  | ⟨_, _, none, body⟩ :: r => (Lists.nowhere.two body.lists).cons (lists_arms r)

theorem lists_inits : (l : List FieldInit) → Lists (within (partsInits l)) (nodesInits l)
  | [] => .nil
  | ⟨_, _, value⟩ :: r => value.lists.cons (lists_inits r)

theorem Block.lists : (b : Block) → Lists (within b.parts) b.nodes
  | ⟨_, stmts, some e⟩ => (lists_stmts stmts).two e.lists
  | ⟨_, stmts, none⟩ => (lists_stmts stmts).two .nowhere

theorem Stmt.lists : (s : Stmt) → Lists (within s.parts) s.nodes
  | .letBind _ _ _ (some e) _ => e.lists.one
  | .letBind _ _ _ none _ => Lists.nowhere.one
  | .assign _ target value => target.lists.two value.lists
  | .expr e => e.lists.one
  | .ret _ (some e) => e.lists.one
  | .ret _ none => Lists.nowhere.one
  | .brk _ (some e) => e.lists.one
  | .brk _ none => Lists.nowhere.one
  | .cont _ => .nil

theorem lists_stmts : (l : List Stmt) → Lists (within (partsStmts l)) (nodesStmts l)
  | [] => .nil
  | s :: r => s.lists.cons (lists_stmts r)

end

theorem FunctionDef.lists (d : FunctionDef) : Lists (within d.parts) d.nodes := by
  have hcontracts := Lists.map (fun c : Contract => c.condition.lists) d.contracts
  unfold FunctionDef.parts FunctionDef.nodes
  cases d.body with
  | some b => exact hcontracts.two b.lists
  | none => exact hcontracts.two .nowhere

theorem Item.lists (i : Item) : Lists (within i.parts) i.nodes := by
  cases i with
  | function d => exact d.lists
  | const d => exact d.value.lists.one
  | trait d => exact .map FunctionDef.lists d.methods
  | impl d => exact .map FunctionDef.lists d.methods
  | _ => exact .nil

theorem Program.lists (p : Program) : Lists p.at? p.nodes := .map Item.lists p.items

/-- There are as many nodes as addresses. -/
theorem Program.ncard_addresses (p : Program) : p.addresses.ncard = p.nodes.length := by
  obtain ⟨places, hsorted, hmem, hmap⟩ := p.lists
  have hset : p.addresses = ↑places.toFinset := by
    ext q
    simp [addresses, hmem]
  have hcount : places.length = p.nodes.length := by
    simpa using congrArg List.length hmap
  rw [hset, Set.ncard_coe_finset, List.toFinset_card_of_nodup (hsorted.imp fun h => h.ne), hcount]

theorem toNat_idsFrom_zero {n : Nat} (h : n < 2 ^ 32) :
    (idsFrom 0 n).map UInt32.toNat = List.range n := by
  rw [idsFrom, List.map_map]
  refine (List.map_congr_left fun i hi => ?_).trans (List.map_id _)
  have hsmall : i < UInt32.size := (List.mem_range.mp hi).trans h
  rw [Function.comp, UInt32.zero_add, UInt32.toNat_ofNat_of_lt' hsmall, id]

/-- The nodes of a numbered program have the identities `0, 1, 2, …`, one for each address of the
program; numbering changes nothing else, and nothing at all the second time. The walk meets what
stands at the addresses, in their order, and relabelling asks about the nodes that the walk meets,
in the same order and once each, whatever else is done where it asks. -/
theorem renumbered_densely (p : Program) (few : p.addresses.ncard < 2 ^ 32) :
    (p.renumber.nodes.map fun e => e.id.toNat) = List.range p.addresses.ncard ∧
      p.renumber.unlabelled = p.unlabelled ∧
      p.renumber.renumber = p.renumber ∧
      Lists p.at? p.nodes ∧
      ∀ (M : Type → Type) [Monad M] [LawfulMonad M] (f : Expr → M ExprId),
        Fills f (p.relabel f) Program.nodes Program.unlabelled p := by
  refine ⟨?_, p.unlabelled_renumber, p.renumber_renumber, p.lists, fun _ _ _ f =>
    program_fills f p⟩
  rw [← toNat_idsFrom_zero few, p.ncard_addresses, ← p.ids_renumber, List.map_map]
  rfl

namespace Unnumbered

open Build

/-- A constant, and a trait with a method that has a contract and a lambda in its body. All its
expressions have the identity zero. -/
def program : Program where
  items := [
    const "limit" (type "i32") (binary .add (int 1) (int 2)),
    trait "Shown" [functionOf "show" [
      .contract .requires (ident "ready"),
      .body (block [letIdent "f" (lambda ["a"] (ident "a"))] (some (ident "f")))]]]

end Unnumbered

theorem unnumbered_renumbered_densely :
    Unnumbered.program.addresses.ncard < 2 ^ 32 ∧
      Unnumbered.program.nodes.map (·.id) = [0, 0, 0, 0, 0, 0, 0] ∧
      (Unnumbered.program.renumber.nodes.map fun e => e.id.toNat) = [0, 1, 2, 3, 4, 5, 6] ∧
      Unnumbered.program.renumber.unlabelled = Unnumbered.program.unlabelled ∧
      Unnumbered.program.renumber.renumber = Unnumbered.program.renumber := by
  have hcount : Unnumbered.program.addresses.ncard = 7 := Unnumbered.program.ncard_addresses
  have hfew : Unnumbered.program.addresses.ncard < 2 ^ 32 := by rw [hcount]; decide
  obtain ⟨hids, hrest, hagain, -⟩ := renumbered_densely Unnumbered.program hfew
  exact ⟨hfew, rfl, hids.trans (congrArg List.range hcount), hrest, hagain⟩

end Sema
