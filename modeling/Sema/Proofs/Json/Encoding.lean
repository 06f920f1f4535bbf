import Sema.Json.Record
import Sema.Proofs.Json.Layout

/-!
# Encodings that read back

A reader takes a bound on how deep brackets may nest. A value encodes `a` for a reader when it
is plain and every bound that leaves room for its brackets reads `a`. There is one lemma for
each way to build a value: tagged variants, records member by member, lists, optional values.
The members of an object are read in the order in which they are written.
-/

namespace Sema.Json

variable {α β : Type} {P : Binary64 → Prop} {v : Value} {vs : List Value}
  {ms : List (String × Value)}

/-- What is `plain` and nests `depth` brackets reads as `a` within any bound not below
`depth`. -/
structure Carries (plain : Prop) (depth : Nat) (read : Nat → Option α) (a : α) : Prop where
  plain : plain
  reads : ∀ n, depth ≤ n → read n = some a

abbrev Encodes (P : Binary64 → Prop) (v : Value) : (Nat → Option α) → α → Prop :=
  Carries (v.Plain P) v.depth

abbrev EncodesElems (P : Binary64 → Prop) (vs : List Value) : (Nat → Option α) → α → Prop :=
  Carries (Value.PlainElems P vs) (Value.depthElems vs)

abbrev EncodesMembers (P : Binary64 → Prop) (ms : List (String × Value)) :
    (Nat → Option α) → α → Prop :=
  Carries (Value.PlainMembers P ms) (Value.depthMembers ms)

namespace Encodes

variable {read : Nat → Option α} {a : α}

theorem arr (h : EncodesElems P vs (fun n => read (n + 1)) a) : Encodes P (.arr vs) read a where
  plain := h.plain
  reads
    | 0, hn => absurd hn (by simp [Value.depth])
    | n + 1, hn => h.reads n (Nat.le_of_succ_le_succ hn)

theorem obj (h : EncodesMembers P ms (fun n => read (n + 1)) a) :
    Encodes P (.obj ms) read a where
  plain := h.plain
  reads
    | 0, hn => absurd hn (by simp [Value.depth])
    | n + 1, hn => h.reads n (Nat.le_of_succ_le_succ hn)

theorem tagged {tag : String} (h : Encodes P v (fun n => read (n + 1)) a) :
    Encodes P (.tagged tag v) read a :=
  obj ⟨⟨h.plain, trivial⟩, fun n hn => h.reads n (by simpa [Value.depthMembers] using hn)⟩

theorem record {names : List String} {read : Nat → List (Option Value) → Option α}
    {fields : List (Option Value)} (hfields : Value.fields? names (.obj ms) = some fields)
    (h : EncodesMembers P ms (fun n => read n fields) a) :
    Encodes P (.obj ms) (fun n => Json.record names read n (.obj ms)) a :=
  obj ⟨h.plain, fun n hn => (congrArg (Option.bind · (read n)) hfields).trans (h.reads n hn)⟩

theorem map {f : α → β} (h : Encodes P v read a) : Encodes P v (fun n => f <$> read n) (f a) where
  plain := h.plain
  reads n hn := by
    rw [h.reads n hn]
    rfl

end Encodes

namespace EncodesMembers

variable {key : String} {x : Nat → Option α} {f : Nat → α → Option β}
  {read : Nat → Value → Option α} {a d : α} {b : β}

/-- The first member is read, then the others. -/
theorem cons (hx : Encodes P v x a) (hf : EncodesMembers P ms (fun n => f n a) b) :
    EncodesMembers P ((key, v) :: ms) (fun n => x n >>= f n) b where
  plain := ⟨hx.plain, hf.plain⟩
  reads n hn := by
    simp only [Value.depthMembers, Nat.max_le] at hn
    simp only [hx.reads n hn.1]
    exact hf.reads n hn.2

theorem field (hx : Encodes P v (fun n => read n v) a)
    (hf : EncodesMembers P ms (fun n => f n a) b) :
    EncodesMembers P ((key, v) :: ms) (fun n => (some v).bind (read n) >>= f n) b :=
  cons hx hf

theorem defaulted (hx : Encodes P v (fun n => read n v) a)
    (hf : EncodesMembers P ms (fun n => f n a) b) :
    EncodesMembers P ((key, v) :: ms) (fun n => Json.defaulted d (read n) (some v) >>= f n) b :=
  cons hx hf

theorem optional {f : Nat → Option α → Option β} {a : Option α}
    (hx : Encodes P v (fun n => Json.optional (read n) (some v)) a)
    (hf : EncodesMembers P ms (fun n => f n a) b) :
    EncodesMembers P ((key, v) :: ms) (fun n => Json.optional (read n) (some v) >>= f n) b :=
  cons hx hf

/-- A member that is not written is read before the others. -/
theorem absent (hf : EncodesMembers P ms (fun n => f n a) b) :
    EncodesMembers P ms (fun n => some a >>= f n) b := hf

theorem done : EncodesMembers P [] (fun _ => some b) b := ⟨trivial, fun _ _ => rfl⟩

theorem only {g : α → β} (hx : Encodes P v (fun n => read n v) a) :
    EncodesMembers P [(key, v)] (fun n => g <$> (some v).bind (read n)) (g a) where
  plain := ⟨hx.plain, trivial⟩
  reads n hn := by
    have hread : read n v = some a := hx.reads n (by simpa [Value.depthMembers] using hn)
    exact congrArg (Option.map g) hread

end EncodesMembers

section Lists

variable {read : Nat → Value → Option α} {encode : α → Value}

theorem EncodesElems.nil : EncodesElems P [] (fun n => [].mapM (read n)) [] :=
  ⟨trivial, fun _ _ => rfl⟩

theorem EncodesElems.cons {a : α} {l : List α} (h : Encodes P v (fun n => read n v) a)
    (hr : EncodesElems P vs (fun n => vs.mapM (read n)) l) :
    EncodesElems P (v :: vs) (fun n => (v :: vs).mapM (read n)) (a :: l) where
  plain := ⟨h.plain, hr.plain⟩
  reads n hn := by
    simp only [Value.depthElems, Nat.max_le] at hn
    rw [List.mapM_cons, h.reads n hn.1, hr.reads n hn.2]
    rfl

theorem list_encodes {l : List α}
    (h : ∀ a ∈ l, Encodes P (encode a) (fun n => read n (encode a)) a) :
    Encodes P (.arr (l.map encode)) (fun n => list read n (.arr (l.map encode))) l := by
  have elems : EncodesElems P (l.map encode) (fun n => (l.map encode).mapM (read n)) l := by
    induction l with
    | nil => exact .nil
    | cons a r ih =>
      exact .cons (h a List.mem_cons_self) (ih fun b hb => h b (List.mem_cons_of_mem a hb))
  exact .arr elems

theorem null_encodes : Encodes P .null (fun n => optional (read n) (some .null)) none :=
  ⟨trivial, fun _ _ => rfl⟩

theorem Encodes.present {a : α} (h : Encodes P v (fun n => read n v) a) (hv : v ≠ .null) :
    Encodes P v (fun n => optional (read n) (some v)) (some a) where
  plain := h.plain
  reads n hn := by
    have hread : read n v = some a := h.reads n hn
    cases v with
    | null => exact absurd rfl hv
    | _ => exact congrArg (Option.map some) hread

theorem option_encodes {o : Option α} (hnull : ∀ a, encode a ≠ .null)
    (h : ∀ a ∈ o, Encodes P (encode a) (fun n => read n (encode a)) a) :
    Encodes P (.ofOption (o.map encode))
      (fun n => optional (read n) (some (.ofOption (o.map encode)))) o := by
  cases o with
  | none => exact null_encodes
  | some a => exact (h a rfl).present (hnull a)

end Lists

theorem str_encodes (s : String) : Encodes P (.str s) (fun _ => Value.str? (.str s)) s :=
  ⟨trivial, fun _ _ => rfl⟩

theorem bool_encodes (b : Bool) : Encodes P (.bool b) (fun _ => Value.bool? (.bool b)) b :=
  ⟨trivial, fun _ _ => rfl⟩

theorem nat?_nat {bound n : Nat} (h : n < bound) : (Value.nat n).nat? bound = some n := by
  simp [Value.nat, Value.nat?, h]

theorem uint32_encodes (n : UInt32) :
    Encodes P (.nat n.toNat) (fun _ => (Value.nat n.toNat).uint32?) n where
  plain := ⟨Int.natCast_nonneg _, by exact_mod_cast Nat.lt_trans n.toNat_lt (by decide)⟩
  reads _ _ := by
    rw [Value.uint32?, nat?_nat n.toNat_lt]
    simp

theorem uint64_encodes (n : UInt64) :
    Encodes P (.nat n.toNat) (fun _ => (Value.nat n.toNat).uint64?) n where
  plain := ⟨Int.natCast_nonneg _, by exact_mod_cast n.toNat_lt⟩
  reads _ _ := by
    rw [Value.uint64?, nat?_nat n.toNat_lt]
    simp

theorem char_encodes (c : Char) :
    Encodes P (.str (String.singleton c)) (fun _ => (Value.str (String.singleton c)).char?) c :=
  ⟨trivial, fun _ _ => by simp [Value.char?]⟩

/-- A variant without payload is written as its name. -/
theorem name_encodes {name : α → String} {ofName? : String → Option α}
    (h : ∀ a, ofName? (name a) = some a) (a : α) :
    Encodes P (.str (name a)) (fun n => unitVariant ofName? n (.str (name a))) a where
  plain := trivial
  reads n _ := by
    cases n with
    | zero => exact h a
    | succ n => exact h a

end Sema.Json
