import Mathlib
import Sema.Proofs.Syntax.Relabelling

/-!
# Numbered programs

To number a tree is to relabel it with the identities that follow the last one given; so the nodes
of a numbered program are `0, 1, 2, …`, as many as there were before. Identities are words of 32
bits, so they are distinct as long as there are no more than `2 ^ 32` of them.
-/

namespace Sema

/-- As many identities, in sequence. -/
def idsFrom (k : ExprId) (n : Nat) : List ExprId := (List.range n).map fun i => k + .ofNat i

theorem length_idsFrom (k : ExprId) (n : Nat) : (idsFrom k n).length = n := by simp [idsFrom]

theorem idsFrom_succ (k : ExprId) (n : Nat) : idsFrom k (n + 1) = k :: idsFrom (k + 1) n := by
  have hshift : ∀ i, k + .ofNat (i + 1) = k + 1 + .ofNat i := fun i => by
    rw [Nat.add_comm, UInt32.ofNat_add, UInt32.add_assoc]
    rfl
  rw [idsFrom, idsFrom, List.range_succ_eq_map, List.map_cons, List.map_map]
  exact congrArg₂ List.cons (UInt32.add_zero k) (List.map_congr_left fun i _ => hshift i)

theorem idsFrom_nodup {n : Nat} (h : n ≤ 2 ^ 32) : (idsFrom 0 n).Nodup := by
  refine List.Nodup.map_on (fun i hi j hj hij => ?_) List.nodup_range
  have hi : i < UInt32.size := Nat.lt_of_lt_of_le (List.mem_range.mp hi) h
  have hj : j < UInt32.size := Nat.lt_of_lt_of_le (List.mem_range.mp hj) h
  rw [UInt32.zero_add, UInt32.zero_add] at hij
  rw [← UInt32.toNat_ofNat_of_lt' hi, ← UInt32.toNat_ofNat_of_lt' hj, hij]

/-- Asked about some nodes, `nextId` answers in sequence. -/
theorem mapM_nextId (l : List Expr) (k : ExprId) :
    ((l.mapM fun e => nextId e.id).run k).1 = idsFrom k l.length := by
  induction l generalizing k with
  | nil => rfl
  | cons e l ih =>
    rw [List.mapM_cons, List.length_cons, idsFrom_succ, ← ih]
    rfl

/-- A numbered program is the program with `0, 1, 2, …` filled in. -/
theorem Program.renumber_fills (p : Program) :
    ∃ fill, Filling Program.nodes Program.unlabelled p fill ∧
      p.renumber = fill (idsFrom 0 p.nodes.length) := by
  obtain ⟨fill, hfill, hlaw⟩ := program_fills (fun e => nextId e.id) p
  refine ⟨fill, hfill, ?_⟩
  rw [renumber, mapIds, hlaw, ← mapM_nextId]
  rfl

/-- The nodes of a numbered program are `0, 1, 2, …`, as many as before. -/
theorem Program.ids_renumber (p : Program) :
    p.renumber.nodes.map (·.id) = idsFrom 0 p.nodes.length := by
  obtain ⟨fill, hfill, hp⟩ := p.renumber_fills
  rw [hp]
  exact hfill.ids_eq _ (length_idsFrom _ _)

theorem Program.nodup_ids_renumber {p : Program} (h : p.nodes.length ≤ 2 ^ 32) :
    (p.renumber.nodes.map (·.id)).Nodup := by
  rw [p.ids_renumber]
  exact idsFrom_nodup h

/-- Numbering changes identities only. -/
theorem Program.unlabelled_renumber (p : Program) : p.renumber.unlabelled = p.unlabelled := by
  obtain ⟨fill, hfill, hp⟩ := p.renumber_fills
  rw [hp]
  exact hfill.plain_eq _ (length_idsFrom _ _)

/-- A numbered program has the identities already that numbering it again would fill in. -/
theorem Program.renumber_renumber (p : Program) : p.renumber.renumber = p.renumber := by
  obtain ⟨fill, hfill, hp⟩ := p.renumber.renumber_fills
  have hids := p.ids_renumber
  have hcount : p.renumber.nodes.length = p.nodes.length := by
    simpa [length_idsFrom] using congrArg List.length hids
  rw [hp, hcount, ← hids]
  exact hfill.own

end Sema
