import Sema.Proofs.Json.Token

/-!
# The text of a value reads back

A layout says which blanks stand between the tokens of a text; one line without blanks and one
member a line are two of them. In every layout the text of a plain value reads back as the
value. A value is plain when text can carry it: its integers are natural numbers of 64 bits and
its floating-point numbers read back from their own text. Reading goes on with what follows the
text, and its bound on nested calls is the length of the text.
-/

namespace Sema.Json

/-- The text of a finite number reads as the number. Not every number is so: reading scales the
digits by a power of ten that is rounded itself, and `7.1e33` reads as a neighbour. -/
def ReadsBack (x : Binary64) : Prop :=
  x.isFinite = true ∧ Reader.number x.text.toList = some (.float x, [])

theorem readsBack_iff (x : Binary64) : ReadsBack x ↔
    (x.isFinite && match Reader.number x.text.toList with
      | some (.float y, []) => y == x
      | _ => false) = true := by
  rw [ReadsBack, Bool.and_eq_true]
  refine and_congr_right fun _ => ⟨fun h => by simp [h], fun h => ?_⟩
  split at h
  · rename_i y hy
    rw [hy, beq_iff_eq.1 h]
  · cases h

instance (x : Binary64) : Decidable (ReadsBack x) := decidable_of_iff' _ (readsBack_iff x)

namespace Value

mutual

/-- Integers are natural numbers of 64 bits, `P` holds of floating-point numbers, and every
part denotes something. -/
def Plain (P : Binary64 → Prop) : Value → Prop
  | .null | .bool _ | .str _ => True
  | .int n => 0 ≤ n ∧ n < Nat.pow 2 64
  | .float x => P x
  | .ill => False
  | .arr elems => PlainElems P elems
  | .obj members => PlainMembers P members

def PlainElems (P : Binary64 → Prop) : List Value → Prop
  | [] => True
  | v :: r => v.Plain P ∧ PlainElems P r

def PlainMembers (P : Binary64 → Prop) : List (String × Value) → Prop
  | [] => True
  | (_, v) :: r => v.Plain P ∧ PlainMembers P r

end

end Value

/-- The blanks of a text: before each element and each closing bracket, by the level they stand
on, and after a colon. -/
structure Layout where
  gap : Nat → List Char
  colon : List Char
  gap_blank : ∀ level, ∀ c ∈ gap level, Reader.isBlank c = true
  colon_blank : ∀ c ∈ colon, Reader.isBlank c = true

namespace Layout

/-- Everything on one line, without blanks. -/
def compact : Layout := ⟨fun _ => [], [], nofun, nofun⟩

/-- One member or element a line. -/
def pretty : Layout where
  gap level := (Printer.newline level).toList
  colon := [' ']
  gap_blank level c hc := by
    simp only [Printer.newline, String.toList_append, String.toList_ofList, List.mem_append] at hc
    rcases hc with hc | hc
    · obtain rfl : c = '\n' := List.mem_singleton.1 hc
      rfl
    · rw [List.eq_of_mem_replicate hc]
      rfl
  colon_blank := by simp [Reader.isBlank]

variable (L : Layout)

mutual

/-- The text of a value that stands `level` levels deep. -/
def text (level : Nat) : Value → List Char
  | .arr [] => ['[', ']']
  | .arr (v :: r) => '[' :: (L.gap (level + 1) ++ (text (level + 1) v ++ moreElems level r))
  | .obj [] => ['\x7b', '\x7d']
  | .obj ((k, v) :: r) =>
    '\x7b' :: (L.gap (level + 1) ++ ((Printer.quoted k).toList ++
      ':' :: (L.colon ++ (text (level + 1) v ++ moreMembers level r))))
  | v => (Printer.scalar v).toList

/-- The elements after the first, and the closing bracket. -/
def moreElems (level : Nat) : List Value → List Char
  | [] => L.gap level ++ [']']
  | v :: r => ',' :: (L.gap (level + 1) ++ (text (level + 1) v ++ moreElems level r))

/-- The members after the first, and the closing brace. -/
def moreMembers (level : Nat) : List (String × Value) → List Char
  | [] => L.gap level ++ ['\x7d']
  | (k, v) :: r =>
    ',' :: (L.gap (level + 1) ++ ((Printer.quoted k).toList ++
      ':' :: (L.colon ++ (text (level + 1) v ++ moreMembers level r))))

end

end Layout

/-! ## What the two printers write -/

theorem toList_intercalate_cons (sep s : String) (l : List String) :
    (sep.intercalate (s :: l)).toList = s.toList ++ l.flatMap fun t => sep.toList ++ t.toList := by
  induction l generalizing s with
  | nil => simp
  | cons t r ih =>
    have step : sep.intercalate (s :: t :: r) = s ++ sep ++ sep.intercalate (t :: r) :=
      String.intercalate_cons_cons
    simp [step, ih]

/-- Parts between brackets: the first part, then each other after a separator. -/
theorem toList_bracketed (first sep last s : String) (l : List String) :
    (first ++ sep.intercalate (s :: l) ++ last).toList = first.toList ++
      (s.toList ++ ((l.flatMap fun t => sep.toList ++ t.toList) ++ last.toList)) := by
  rw [String.toList_append, String.toList_append, toList_intercalate_cons, List.append_assoc,
    List.append_assoc]

mutual

theorem toList_compact (level : Nat) : (v : Value) →
    v.compact.toList = Layout.compact.text level v
  | .null | .bool _ | .int _ | .float _ | .str _ | .ill => rfl
  | .arr [] => rfl
  | .arr (v :: r) => by
    rw [Value.compact, Value.compactElems, toList_bracketed, toList_compact (level + 1) v,
      flatMap_compactElems level r]
    rfl
  | .obj [] => rfl
  | .obj ((k, v) :: r) => by
    rw [Value.compact, Value.compactMembers, toList_bracketed, flatMap_compactMembers level r,
      String.toList_append, String.toList_append, toList_compact (level + 1) v]
    simp [Layout.text, Layout.compact]

theorem flatMap_compactElems (level : Nat) : (l : List Value) →
    ((Value.compactElems l).flatMap fun t => ",".toList ++ t.toList) ++ "]".toList =
      Layout.compact.moreElems level l
  | [] => rfl
  | v :: r => by
    rw [Value.compactElems, List.flatMap_cons, List.append_assoc, flatMap_compactElems level r,
      toList_compact (level + 1) v]
    rfl

theorem flatMap_compactMembers (level : Nat) : (l : List (String × Value)) →
    ((Value.compactMembers l).flatMap fun t => ",".toList ++ t.toList) ++ "\x7d".toList =
      Layout.compact.moreMembers level l
  | [] => rfl
  | (k, v) :: r => by
    rw [Value.compactMembers, List.flatMap_cons, List.append_assoc, flatMap_compactMembers level r,
      String.toList_append, String.toList_append, toList_compact (level + 1) v]
    simp [Layout.moreMembers, Layout.compact]

end

mutual

theorem toList_prettyAt (level : Nat) : (v : Value) →
    (v.prettyAt level).toList = Layout.pretty.text level v
  | .null | .bool _ | .int _ | .float _ | .str _ | .ill => rfl
  | .arr [] => by simp [Value.prettyAt, Layout.text]
  | .arr (v :: r) => by
    rw [Value.prettyAt, String.append_assoc, Value.prettyElems, toList_bracketed,
      toList_prettyAt (level + 1) v, flatMap_prettyElems level r]
    · simp [Layout.text, Layout.pretty]
    · exact nofun
  | .obj [] => by simp [Value.prettyAt, Layout.text]
  | .obj ((k, v) :: r) => by
    rw [Value.prettyAt, String.append_assoc, Value.prettyMembers, toList_bracketed,
      flatMap_prettyMembers level r, String.toList_append, String.toList_append,
      toList_prettyAt (level + 1) v]
    · simp [Layout.text, Layout.pretty]
    · exact nofun

theorem flatMap_prettyElems (level : Nat) : (l : List Value) →
    ((Value.prettyElems (level + 1) l).flatMap fun t =>
      ("," ++ Printer.newline (level + 1)).toList ++ t.toList) ++
      (Printer.newline level ++ "]").toList = Layout.pretty.moreElems level l
  | [] => by simp [Value.prettyElems, Layout.moreElems, Layout.pretty]
  | v :: r => by
    rw [Value.prettyElems, List.flatMap_cons, List.append_assoc, flatMap_prettyElems level r,
      toList_prettyAt (level + 1) v]
    simp [Layout.moreElems, Layout.pretty]

theorem flatMap_prettyMembers (level : Nat) : (l : List (String × Value)) →
    ((Value.prettyMembers (level + 1) l).flatMap fun t =>
      ("," ++ Printer.newline (level + 1)).toList ++ t.toList) ++
      (Printer.newline level ++ "\x7d").toList = Layout.pretty.moreMembers level l
  | [] => by simp [Value.prettyMembers, Layout.moreMembers, Layout.pretty]
  | (k, v) :: r => by
    rw [Value.prettyMembers, List.flatMap_cons, List.append_assoc, flatMap_prettyMembers level r,
      String.toList_append, String.toList_append, toList_prettyAt (level + 1) v]
    simp [Layout.moreMembers, Layout.pretty]

end

/-! ## One step of the reader -/

namespace Reader

theorem skipBlank_cons {c : Char} (h : isBlank c = false) (cs : List Char) :
    skipBlank (c :: cs) = c :: cs := by
  rw [skipBlank, List.dropWhile_cons_of_neg (by simp [h])]

theorem not_blank_of_number {c : Char} (hc : c = '-' ∨ c.isDigit = true) :
    isBlank c = false := by
  cases hb : isBlank c with
  | false => rfl
  | true =>
    simp only [isBlank, Bool.or_eq_true, beq_iff_eq] at hb
    rcases hb with ((rfl | rfl) | rfl) | rfl <;> exact absurd hc (by decide)

theorem value_number {n : Nat} {cs r : List Char} {v : Value} (h : number cs = some (v, r)) :
    value (n + 1) cs = some (v, r) := by
  obtain ⟨c, t, rfl, hc⟩ := head_of_number h
  unfold value
  rw [skipBlank_cons (not_blank_of_number hc)]
  split <;> simp_all

theorem quoted_append (s : String) (cs : List Char) : (Printer.quoted s).toList ++ cs =
    '"' :: (s.toList.flatMap Printer.escaped ++ '"' :: cs) := by
  simp [Printer.quoted]

theorem value_str (n : Nat) (s : String) (rest : List Char) :
    value (n + 1) ((Printer.quoted s).toList ++ rest) = some (.str s, rest) := by
  rw [quoted_append]
  simp [value, skipBlank, isBlank, string_flatMap_escaped]

section Blank

variable {blank : List Char} (hblank : ∀ c ∈ blank, isBlank c = true)
include hblank

theorem skipBlank_append (cs : List Char) : skipBlank (blank ++ cs) = skipBlank cs :=
  List.dropWhile_append_of_pos hblank

theorem ends_blank {rest : List Char} (hrest : Ends rest) : Ends (blank ++ rest) := by
  cases blank with
  | nil => exact hrest
  | cons b t =>
    have hb := hblank b List.mem_cons_self
    apply ends_cons
    simp only [isBlank, Bool.or_eq_true, beq_iff_eq] at hb
    rcases hb with ((rfl | rfl) | rfl) | rfl <;> decide

theorem value_blank (n : Nat) (cs : List Char) : value n (blank ++ cs) = value n cs := by
  cases n with
  | zero => rfl
  | succ n => simp only [value, skipBlank_append hblank]

theorem elems_blank (n : Nat) (cs : List Char) : elems n (blank ++ cs) = elems n cs := by
  cases n with
  | zero => rfl
  | succ n => simp only [elems, value_blank hblank]

theorem members_blank (n : Nat) (cs : List Char) : members n (blank ++ cs) = members n cs := by
  cases n with
  | zero => rfl
  | succ n => simp only [members, skipBlank_append hblank]

theorem elems_last {n : Nat} {cs rest : List Char} {v : Value}
    (hv : value n cs = some (v, blank ++ ']' :: rest)) :
    elems (n + 1) cs = some ([v], rest) := by
  have hskip : skipBlank (blank ++ ']' :: rest) = ']' :: rest := by
    rw [skipBlank_append hblank]
    rfl
  simp [elems, hv, hskip]

theorem members_last {n : Nat} {cs rest : List Char} {k : String} {v : Value}
    (hv : value n cs = some (v, blank ++ '\x7d' :: rest)) :
    members (n + 1) ((Printer.quoted k).toList ++ ':' :: cs) = some (some [(k, v)], rest) := by
  have hquote (r : List Char) : skipBlank ('"' :: r) = '"' :: r := rfl
  have hcolon : skipBlank (':' :: cs) = ':' :: cs := rfl
  have hskip : skipBlank (blank ++ '\x7d' :: rest) = '\x7d' :: rest := by
    rw [skipBlank_append hblank]
    rfl
  rw [quoted_append]
  simp [members, hquote, hcolon, string_flatMap_escaped, hv, hskip]

theorem value_arr {n : Nat} {cs t rest : List Char} {c : Char} {vs : List Value}
    (hcs : cs = c :: t) (hc : isBlank c = false) (hclose : c ≠ ']')
    (h : elems n cs = some (vs, rest)) :
    value (n + 1) ('[' :: (blank ++ cs)) = some (.arr vs, rest) := by
  have hopen (r : List Char) : skipBlank ('[' :: r) = '[' :: r := rfl
  have hskip : skipBlank (blank ++ cs) = cs := by
    rw [skipBlank_append hblank, hcs, skipBlank_cons hc]
  simp only [value, hopen, hskip]
  subst hcs
  split
  · simp_all
  · simp [h]

theorem value_obj {n : Nat} {cs rest : List Char} {k : String} {ms : List (String × Value)}
    (h : members n ((Printer.quoted k).toList ++ cs) = some (some ms, rest)) :
    value (n + 1) ('\x7b' :: (blank ++ ((Printer.quoted k).toList ++ cs))) =
      some (.obj ms, rest) := by
  have hopen (r : List Char) : skipBlank ('\x7b' :: r) = '\x7b' :: r := rfl
  rw [quoted_append] at h ⊢
  have hskip : skipBlank (blank ++ '"' :: (k.toList.flatMap Printer.escaped ++ '"' :: cs)) =
      '"' :: (k.toList.flatMap Printer.escaped ++ '"' :: cs) := by
    rw [skipBlank_append hblank]
    rfl
  simp [value, hopen, hskip, h]

end Blank

theorem elems_step {n : Nat} {cs r rest : List Char} {v : Value} {vs : List Value}
    (hv : value n cs = some (v, ',' :: r)) (hvs : elems n r = some (vs, rest)) :
    elems (n + 1) cs = some (v :: vs, rest) := by
  have hcomma : skipBlank (',' :: r) = ',' :: r := rfl
  simp [elems, hv, hcomma, hvs]

theorem members_step {n : Nat} {cs r rest : List Char} {k : String} {v : Value}
    {ms : List (String × Value)} (hv : value n cs = some (v, ',' :: r))
    (hms : members n r = some (some ms, rest)) :
    members (n + 1) ((Printer.quoted k).toList ++ ':' :: cs) =
      some (some ((k, v) :: ms), rest) := by
  have hquote (r : List Char) : skipBlank ('"' :: r) = '"' :: r := rfl
  have hcolon : skipBlank (':' :: cs) = ':' :: cs := rfl
  have hcomma : skipBlank (',' :: r) = ',' :: r := rfl
  rw [quoted_append]
  simp [members, hquote, hcolon, string_flatMap_escaped, hv, hcomma, hms]

end Reader

/-! ## The reader on the text of a value -/

namespace Layout

variable (L : Layout)

open Reader

theorem number_text_int (level : Nat) {n : Int} (h : 0 ≤ n ∧ n < Nat.pow 2 64) :
    number (L.text level (.int n)) = some (.int n, []) := by
  obtain ⟨k, rfl⟩ := Int.eq_ofNat_of_zero_le h.1
  have hk : k < Nat.pow 2 64 := by exact_mod_cast h.2
  have htext : L.text level (.int k) = Nat.toDigits 10 k := Nat.toList_repr
  rw [htext]
  exact number_toDigits hk

theorem number_text_float (level : Nat) {x : Binary64} (h : ReadsBack x) :
    number (L.text level (.float x)) = some (.float x, []) := by
  have htext : L.text level (.float x) = x.text.toList := congrArg String.toList (if_pos h.1)
  rw [htext]
  exact h.2

theorem text_head_of_number {level : Nat} {v : Value}
    (h : number (L.text level v) = some (v, [])) :
    ∃ c t, L.text level v = c :: t ∧ isBlank c = false ∧ c ≠ ']' := by
  obtain ⟨c, t, htext, hc⟩ := head_of_number h
  have hclose : c ≠ ']' := by
    rintro rfl
    exact absurd hc (by decide)
  exact ⟨c, t, htext, not_blank_of_number hc, hclose⟩

/-- A text starts with a character that is neither blank nor a closing bracket. -/
theorem text_head (level : Nat) {v : Value} (h : v.Plain ReadsBack) :
    ∃ c t, L.text level v = c :: t ∧ isBlank c = false ∧ c ≠ ']' := by
  match v with
  | .null => exact ⟨'n', _, rfl, by decide⟩
  | .bool true => exact ⟨'t', _, rfl, by decide⟩
  | .bool false => exact ⟨'f', _, rfl, by decide⟩
  | .int n => exact L.text_head_of_number (L.number_text_int level h)
  | .float x => exact L.text_head_of_number (L.number_text_float level h)
  | .str s =>
    have htext : L.text level (.str s) = _ :=
      (List.append_nil (Printer.quoted s).toList).symm.trans (quoted_append s [])
    exact ⟨'"', _, htext, by decide⟩
  | .arr [] => exact ⟨'[', _, rfl, by decide⟩
  | .arr (v :: r) => exact ⟨'[', _, rfl, by decide⟩
  | .obj [] => exact ⟨'\x7b', _, rfl, by decide⟩
  | .obj ((k, v) :: r) => exact ⟨'\x7b', _, rfl, by decide⟩

theorem text_length_pos (level : Nat) {v : Value} (h : v.Plain ReadsBack) :
    0 < (L.text level v).length := by
  obtain ⟨c, t, htext, -⟩ := L.text_head level h
  simp [htext]

theorem moreElems_length_pos (level : Nat) (l : List Value) :
    0 < (L.moreElems level l).length := by
  cases l <;> simp [moreElems]

theorem moreMembers_length_pos (level : Nat) (l : List (String × Value)) :
    0 < (L.moreMembers level l).length := by
  cases l <;> simp [moreMembers]

theorem ends_moreElems (level : Nat) (l : List Value) (rest : List Char) :
    Ends (L.moreElems level l ++ rest) := by
  cases l with
  | nil =>
    rw [moreElems, List.append_assoc]
    exact ends_blank (L.gap_blank level) (ends_cons (by decide) _)
  | cons v r => exact ends_cons (by decide) _

theorem ends_moreMembers (level : Nat) (l : List (String × Value)) (rest : List Char) :
    Ends (L.moreMembers level l ++ rest) := by
  cases l with
  | nil =>
    rw [moreMembers, List.append_assoc]
    exact ends_blank (L.gap_blank level) (ends_cons (by decide) _)
  | cons m r => exact ends_cons (by decide) _

mutual

/-- Reading the text of a value gives the value and leaves what follows. -/
theorem value_text (level : Nat) : (v : Value) → v.Plain ReadsBack →
    ∀ (n : Nat) (rest : List Char), (L.text level v).length ≤ n + 1 → Ends rest →
    value (n + 1) (L.text level v ++ rest) = some (v, rest)
  | .null, _ => fun _ _ _ _ => rfl
  | .bool true, _ => fun _ _ _ _ => rfl
  | .bool false, _ => fun _ _ _ _ => rfl
  | .int _, h => fun _ _ _ hrest =>
    value_number (number_append hrest (L.number_text_int level h))
  | .float _, h => fun _ _ _ hrest =>
    value_number (number_append hrest (L.number_text_float level h))
  | .str s, _ => fun n rest _ _ => value_str n s rest
  | .arr [], _ => fun _ _ _ _ => rfl
  | .arr (v :: r), h => fun n rest hn _ => by
    simp only [text, List.length_cons, List.length_append] at hn
    simp only [text, List.cons_append, List.append_assoc]
    have hpos := L.text_length_pos (level + 1) h.1
    have hmore := L.moreElems_length_pos level r
    -- The bracket and the first element pay for the two calls down to the element.
    obtain ⟨k, rfl⟩ : ∃ k, n = k + 2 := ⟨n - 2, by omega⟩
    have hv := value_text (level + 1) v h.1 k _ (by omega) (L.ends_moreElems level r rest)
    obtain ⟨c, t, htext, hc, hclose⟩ := L.text_head (level + 1) h.1
    exact value_arr (L.gap_blank _) (congrArg (· ++ _) htext) hc hclose
      (elems_text level r h.2 _ _ _ _ (by omega) hv)
  | .obj [], _ => fun _ _ _ _ => rfl
  | .obj ((k, v) :: r), h => fun n rest hn _ => by
    simp only [text, List.length_cons, List.length_append] at hn
    simp only [text, List.cons_append, List.append_assoc]
    have hpos := L.text_length_pos (level + 1) h.1
    have hmore := L.moreMembers_length_pos level r
    obtain ⟨j, rfl⟩ : ∃ j, n = j + 2 := ⟨n - 2, by omega⟩
    have hv := value_text (level + 1) v h.1 j _ (by omega) (L.ends_moreMembers level r rest)
    rw [← value_blank L.colon_blank] at hv
    exact value_obj (L.gap_blank _) (members_text level r h.2 _ _ _ _ _ (by omega) hv)

/-- An element is followed by the elements after it. -/
theorem elems_text (level : Nat) : (l : List Value) → Value.PlainElems ReadsBack l →
    ∀ (n : Nat) (v : Value) (cs rest : List Char), (L.moreElems level l).length ≤ n + 1 →
    value n cs = some (v, L.moreElems level l ++ rest) → elems (n + 1) cs = some (v :: l, rest)
  | [], _ => fun _ _ _ _ _ hv => elems_last (L.gap_blank level) (by simpa [moreElems] using hv)
  | w :: r, h => fun n v cs rest hn hv => by
    simp only [moreElems, List.length_cons, List.length_append] at hn
    simp only [moreElems, List.cons_append, List.append_assoc] at hv
    have hpos := L.text_length_pos (level + 1) h.1
    have hmore := L.moreElems_length_pos level r
    obtain ⟨k, rfl⟩ : ∃ k, n = k + 2 := ⟨n - 2, by omega⟩
    have hw := value_text (level + 1) w h.1 k _ (by omega) (L.ends_moreElems level r rest)
    apply elems_step hv
    rw [elems_blank (L.gap_blank _)]
    exact elems_text level r h.2 _ _ _ _ (by omega) hw

theorem members_text (level : Nat) : (l : List (String × Value)) →
    Value.PlainMembers ReadsBack l →
    ∀ (n : Nat) (k : String) (v : Value) (cs rest : List Char),
    (L.moreMembers level l).length ≤ n + 1 →
    value n cs = some (v, L.moreMembers level l ++ rest) →
    members (n + 1) ((Printer.quoted k).toList ++ ':' :: cs) = some (some ((k, v) :: l), rest)
  | [], _ => fun _ _ _ _ _ _ hv =>
    members_last (L.gap_blank level) (by simpa [moreMembers] using hv)
  | (key, w) :: r, h => fun n k v cs rest hn hv => by
    simp only [moreMembers, List.length_cons, List.length_append] at hn
    simp only [moreMembers, List.cons_append, List.append_assoc] at hv
    have hpos := L.text_length_pos (level + 1) h.1
    have hmore := L.moreMembers_length_pos level r
    obtain ⟨j, rfl⟩ : ∃ j, n = j + 2 := ⟨n - 2, by omega⟩
    have hw := value_text (level + 1) w h.1 j _ (by omega) (L.ends_moreMembers level r rest)
    rw [← value_blank L.colon_blank] at hw
    apply members_step hv
    rw [members_blank (L.gap_blank _)]
    exact members_text level r h.2 _ _ _ _ _ (by omega) hw

end

/-- A plain value reads back from its text in any layout. -/
theorem parse?_text {v : Value} (h : v.Plain ReadsBack) :
    parse? (String.ofList (L.text 0 v)) = some v := by
  have hread := L.value_text 0 v h _ _ (Nat.le_succ _) ends_nil
  rw [List.append_nil] at hread
  simp only [parse?, String.toList_ofList, hread]
  rfl

end Layout

theorem parse?_compact {v : Value} (h : v.Plain ReadsBack) : parse? v.compact = some v := by
  have htext := Layout.compact.parse?_text h
  rwa [← toList_compact, String.ofList_toList] at htext

theorem parse?_pretty {v : Value} (h : v.Plain ReadsBack) : parse? v.pretty = some v := by
  have htext := Layout.pretty.parse?_text h
  rwa [← toList_prettyAt, String.ofList_toList] at htext

end Sema.Json
