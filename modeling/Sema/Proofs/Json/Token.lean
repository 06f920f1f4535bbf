import Mathlib.Data.List.TakeDrop
import Mathlib.Data.List.TakeWhile
import Sema.Json.Printer
import Sema.Json.Reader

/-!
# Numbers and strings read back

A number is read alike whatever stands after it, as long as that does not go on with the
number; the digits of a natural number below `2 ^ 64` read as that number, and a quoted string
reads as the string. These are the tokens of which the texts of values are made.
-/

namespace Sema.Json.Reader

/-- What stands here does not go on with a number that ends before it. -/
def Ends (rest : List Char) : Prop :=
  ∀ c ∈ rest.head?, c.isDigit = false ∧ c ≠ '.' ∧ c ≠ 'e' ∧ c ≠ 'E'

theorem ends_nil : Ends [] := nofun

theorem ends_cons {c : Char} (h : c.isDigit = false ∧ c ≠ '.' ∧ c ≠ 'e' ∧ c ≠ 'E')
    (rest : List Char) : Ends (c :: rest) := by
  intro d hd
  obtain rfl : c = d := by simpa using hd
  exact h

theorem fraction_of_ne {cs : List Char} (h : ∀ c ∈ cs.head?, c ≠ '.') :
    fraction cs = some (none, cs) := by
  unfold fraction
  split
  · exact absurd rfl (h '.' rfl)
  · rfl

/-- The digits of an exponent, after their sign if they have one. -/
def signedExponent : List Char → Option (Option Int × List Char)
  | '+' :: r => exponentDigits false r
  | '-' :: r => exponentDigits true r
  | r => exponentDigits false r

theorem exponent_cons (c : Char) (r : List Char) : exponent (c :: r) =
    if c = 'e' || c = 'E' then signedExponent r else some (none, c :: r) := rfl

/-- A minus sign, if one stands here. -/
def sign : List Char → Bool × List Char
  | '-' :: r => (true, r)
  | r => (false, r)

/-- A number after its sign. -/
def unsigned (negative : Bool) (cs : List Char) : Option (Value × List Char) :=
  let whole := (digits cs).1
  if whole.isEmpty || (whole.head? == some '0' && whole.length ≠ 1) then none
  else do
    let (frac, cs) ← fraction (digits cs).2
    let (exp, cs) ← exponent cs
    return (numberValue negative whole frac exp, cs)

theorem number_eq (cs : List Char) : number cs = unsigned (sign cs).1 (sign cs).2 := by
  dsimp only [unsigned]
  split
  · rename_i h
    exact if_pos h
  · rename_i h
    exact if_neg h

theorem sign_append {cs : List Char} (h : cs ≠ []) (rest : List Char) :
    sign (cs ++ rest) = ((sign cs).1, (sign cs).2 ++ rest) := by
  cases cs with
  | nil => exact absurd rfl h
  | cons c t =>
    by_cases hc : c = '-'
    · subst hc
      rfl
    · unfold sign
      split <;> split <;> simp_all

section Append

variable {rest : List Char} (hrest : Ends rest)
include hrest

theorem digits_append (cs : List Char) :
    digits (cs ++ rest) = ((digits cs).1, (digits cs).2 ++ rest) := by
  simp only [digits, List.span_eq_takeWhile_dropWhile]
  induction cs with
  | nil =>
    cases rest with
    | nil => rfl
    | cons c r =>
      have hc : c.isDigit = false := (hrest c rfl).1
      simp [hc]
  | cons c r ih =>
    simp only [Prod.mk.injEq] at ih
    cases hc : c.isDigit with
    | true => simp [hc, ih]
    | false => simp [hc]

theorem fraction_append {cs r : List Char} {f : Option (List Char)}
    (h : fraction cs = some (f, r)) : fraction (cs ++ rest) = some (f, r ++ rest) := by
  cases cs with
  | nil =>
    cases h
    exact fraction_of_ne fun c hc => (hrest c hc).2.1
  | cons c t =>
    by_cases hc : c = '.'
    · subst hc
      simp only [List.cons_append, fraction, digits_append hrest] at h ⊢
      split at h
      · cases h
      · rename_i hne
        simp only [Option.some.injEq, Prod.mk.injEq] at h
        simp [hne, h]
    · have head : ∀ d ∈ (c :: t).head?, d ≠ '.' := by simpa using hc
      rw [fraction_of_ne head] at h
      cases h
      exact fraction_of_ne head

theorem exponentDigits_append {cs r : List Char} {negative : Bool} {e : Option Int}
    (h : exponentDigits negative cs = some (e, r)) :
    exponentDigits negative (cs ++ rest) = some (e, r ++ rest) := by
  simp only [exponentDigits, digits_append hrest] at h ⊢
  split at h
  · cases h
  · rename_i hne
    simp only [Option.some.injEq, Prod.mk.injEq] at h
    simp [hne, h]

theorem signedExponent_append {cs r : List Char} {e : Option Int}
    (h : signedExponent cs = some (e, r)) :
    signedExponent (cs ++ rest) = some (e, r ++ rest) := by
  unfold signedExponent at h
  split at h
  · exact exponentDigits_append hrest h
  · exact exponentDigits_append hrest h
  · cases cs with
    | nil => cases h
    | cons c t =>
      have unsigned : signedExponent (c :: t ++ rest) = exponentDigits false (c :: t ++ rest) := by
        unfold signedExponent
        split <;> simp_all
      rw [unsigned]
      exact exponentDigits_append hrest h

theorem exponent_append {cs r : List Char} {e : Option Int} (h : exponent cs = some (e, r)) :
    exponent (cs ++ rest) = some (e, r ++ rest) := by
  cases cs with
  | nil =>
    cases h
    cases rest with
    | nil => rfl
    | cons c t =>
      obtain ⟨-, -, he, hE⟩ := hrest c rfl
      simp [exponent_cons, he, hE]
  | cons c t =>
    rw [exponent_cons] at h
    rw [List.cons_append, exponent_cons]
    split at h
    · rename_i hc
      rw [if_pos hc]
      exact signedExponent_append hrest h
    · rename_i hc
      rw [if_neg hc]
      cases h
      rfl

theorem unsigned_append {cs r : List Char} {negative : Bool} {v : Value}
    (h : unsigned negative cs = some (v, r)) :
    unsigned negative (cs ++ rest) = some (v, r ++ rest) := by
  simp only [unsigned, digits_append hrest] at h ⊢
  split at h
  · cases h
  · rename_i hwhole
    rw [if_neg hwhole]
    simp only [Option.bind_eq_bind, Option.bind_eq_some_iff] at h ⊢
    obtain ⟨⟨frac, cs'⟩, hfrac, ⟨exp, cs''⟩, hexp, hv⟩ := h
    cases hv
    exact ⟨_, fraction_append hrest hfrac, _, exponent_append hrest hexp, rfl⟩

/-- A number is read alike whatever stands after it. -/
theorem number_append {cs r : List Char} {v : Value} (h : number cs = some (v, r)) :
    number (cs ++ rest) = some (v, r ++ rest) := by
  have hne : cs ≠ [] := by
    rintro rfl
    cases h
  rw [number_eq] at h ⊢
  rw [sign_append hne rest]
  exact unsigned_append hrest h

end Append

/-- A number starts with a digit or a minus sign. -/
theorem head_of_number {cs r : List Char} {v : Value} (h : number cs = some (v, r)) :
    ∃ c t, cs = c :: t ∧ (c = '-' ∨ c.isDigit = true) := by
  cases cs with
  | nil => cases h
  | cons c t =>
    refine ⟨c, t, rfl, ?_⟩
    by_cases hminus : c = '-'
    · exact .inl hminus
    · have hsign : sign (c :: t) = (false, c :: t) := by
        unfold sign
        split <;> simp_all
      rw [number_eq, hsign] at h
      cases hdigit : c.isDigit with
      | true => exact .inr rfl
      | false => simp [unsigned, digits, List.span_eq_takeWhile_dropWhile, hdigit] at h

theorem length_repr (n : Nat) : n.repr.length = (Nat.toDigits 10 n).length := by
  rw [← String.length_toList, Nat.toList_repr]

theorem isDigit_toDigits (n : Nat) : ∀ c ∈ Nat.toDigits 10 n, c.isDigit = true :=
  fun _ hc => Nat.isDigit_of_mem_toDigits (by decide) (by decide) hc

theorem digits_toDigits (n : Nat) : digits (Nat.toDigits 10 n) = (Nat.toDigits 10 n, []) := by
  have all := isDigit_toDigits n
  rw [digits, List.span_eq_takeWhile_dropWhile, List.takeWhile_eq_self_iff.2 all,
    List.dropWhile_eq_nil_iff.2 all]

theorem sign_toDigits (n : Nat) : sign (Nat.toDigits 10 n) = (false, Nat.toDigits 10 n) := by
  unfold sign
  split
  · rename_i r hr
    have minus : '-'.isDigit = true := isDigit_toDigits n '-' (hr ▸ List.mem_cons_self)
    exact absurd minus (by decide)
  · rfl

theorem digitsValue_toDigits (n : Nat) : digitsValue (Nat.toDigits 10 n) = n := by
  have step : appendDigit = fun sofar c => 10 * sofar + (c.toNat - '0'.toNat) := by
    funext sofar c
    rw [appendDigit, Nat.mul_comm]
  rw [digitsValue, step]
  exact Nat.ofDigitChars_toDigits (by decide) (by decide)

/-- Only zero is written with a leading zero. -/
theorem eq_zero_of_head?_toDigits {n : Nat} (h : (Nat.toDigits 10 n).head? = some '0') :
    n = 0 := by
  induction n using Nat.strongRecOn with
  | ind n ih =>
    rw [Nat.toDigits_eq_if (by decide)] at h
    split at h
    · rename_i hlt
      have digit : ∀ d < 10, [d.digitChar].head? = some '0' → d = 0 := by decide
      exact digit n hlt h
    · have hhead : (Nat.toDigits 10 (n / 10)).head? = some '0' := by
        cases hdigits : Nat.toDigits 10 (n / 10) with
        | nil => exact absurd hdigits Nat.toDigits_ne_nil
        | cons c r => simpa [hdigits] using h
      have tens : n / 10 = 0 := ih (n / 10) (by omega) hhead
      omega

/-- The digits of a natural number that fits 64 bits read as the number. -/
theorem number_toDigits {n : Nat} (h : n < Nat.pow 2 64) :
    number (Nat.toDigits 10 n) = some (.nat n, []) := by
  have hzero : ((Nat.toDigits 10 n).isEmpty || ((Nat.toDigits 10 n).head? == some '0' &&
      (Nat.toDigits 10 n).length ≠ 1)) = false := by
    by_cases hn : n = 0
    · subst hn
      rfl
    · have hhead : (Nat.toDigits 10 n).head? ≠ some '0' :=
        fun h0 => hn (eq_zero_of_head?_toDigits h0)
      simp [hhead]
  have hvalue : numberValue false (Nat.toDigits 10 n) none none = .nat n := by
    simp only [numberValue, digitsValue_toDigits]
    simp [h, Value.nat]
  rw [number_eq, sign_toDigits]
  simp only [unsigned, digits_toDigits, hzero]
  exact congrArg (fun v => some (v, [])) hvalue

theorem hexDigit?_hexDigit {n : Nat} (h : n < 16) : hexDigit? (Printer.hexDigit n) = some n := by
  have all : ∀ d < 16, hexDigit? (Printer.hexDigit d) = some d := by decide
  exact all n h

theorem unit?_hexDigit {n : Nat} (h : n < 0x20) :
    unit? '0' '0' (Printer.hexDigit (n / 16)) (Printer.hexDigit (n % 16)) = some (.unit n) := by
  have zero : hexDigit? '0' = some 0 := by decide
  have high := hexDigit?_hexDigit (show n / 16 < 16 by omega)
  have low := hexDigit?_hexDigit (Nat.mod_lt n (show 0 < 16 by decide))
  have value : ((0 * 16 + 0) * 16 + n / 16) * 16 + n % 16 = n := by omega
  simp only [unit?, zero, high, low]
  exact congrArg (fun k => some (Piece.unit k)) value

theorem pieces_char {c : Char} {r rest : List Char} {ps : List Piece} (hquote : c ≠ '"')
    (hslash : c ≠ '\\') (hcontrol : ¬ c.toNat < 0x20) (h : pieces r = some (ps, rest)) :
    pieces (c :: r) = some (.char c :: ps, rest) := by
  unfold pieces
  split <;> simp_all

theorem pieces_short {e c : Char} {r rest : List Char} {ps : List Piece} (hu : e ≠ 'u')
    (he : escape? e = some c) (h : pieces r = some (ps, rest)) :
    pieces ('\\' :: e :: r) = some (.char c :: ps, rest) := by
  rw [pieces, he, h]
  · rfl
  · exact fun a b c d t heq => absurd heq hu

/-- The three ways to write a character: a short escape, four hexadecimal digits, itself. -/
theorem escaped_cases (c : Char) :
    (∃ e, Printer.escaped c = ['\\', e] ∧ e ≠ 'u' ∧ escape? e = some c) ∨
    (c.toNat < 0x20 ∧ Printer.escaped c =
      ['\\', 'u', '0', '0', Printer.hexDigit (c.toNat / 16), Printer.hexDigit (c.toNat % 16)]) ∨
    (Printer.escaped c = [c] ∧ c ≠ '"' ∧ c ≠ '\\' ∧ ¬ c.toNat < 0x20) := by
  unfold Printer.escaped
  by_cases hquote : c = '"'
  · subst c
    exact .inl ⟨_, rfl, by decide, rfl⟩
  by_cases hslash : c = '\\'
  · subst c
    exact .inl ⟨_, rfl, by decide, rfl⟩
  rw [if_neg hquote, if_neg hslash]
  -- The other five short escapes are control characters, tried in the order of the printer.
  iterate 5
    split
    · subst c
      exact .inl ⟨_, rfl, by decide, rfl⟩
  split
  · rename_i hcontrol
    exact .inr (.inl ⟨hcontrol, rfl⟩)
  · rename_i hcontrol
    exact .inr (.inr ⟨rfl, hquote, hslash, hcontrol⟩)

/-- A written character reads as one piece, which stands for the character. -/
theorem pieces_escaped (c : Char) : ∃ p, (∀ {r ps rest}, pieces r = some (ps, rest) →
    pieces (Printer.escaped c ++ r) = some (p :: ps, rest)) ∧
    ∀ {ps s}, characters ps = some s → characters (p :: ps) = some (c :: s) := by
  obtain ⟨e, hc, hu, he⟩ | ⟨hcontrol, hc⟩ | ⟨hc, hquote, hslash, hcontrol⟩ := escaped_cases c
  · refine ⟨.char c, fun h => ?_, fun h => by simp [characters, h]⟩
    rw [hc]
    exact pieces_short hu he h
  · refine ⟨.unit c.toNat, fun h => ?_, fun h => ?_⟩
    · rw [hc]
      simp only [List.cons_append, List.nil_append, pieces, unit?_hexDigit hcontrol, h]
      rfl
    · have surrogate : ¬ (0xD800 ≤ c.toNat && c.toNat < 0xE000) = true := by
        simp
        omega
      unfold characters
      rw [if_neg surrogate, h, Char.ofNat_toNat]
      rfl
  · refine ⟨.char c, fun h => ?_, fun h => by simp [characters, h]⟩
    rw [hc]
    exact pieces_char hquote hslash hcontrol h

theorem pieces_flatMap_escaped (s rest : List Char) :
    ∃ ps, pieces (s.flatMap Printer.escaped ++ '"' :: rest) = some (ps, rest) ∧
      characters ps = some s := by
  induction s with
  | nil => exact ⟨[], rfl, rfl⟩
  | cons c r ih =>
    obtain ⟨ps, hpieces, hcharacters⟩ := ih
    obtain ⟨p, hp, hc⟩ := pieces_escaped c
    refine ⟨p :: ps, ?_, hc hcharacters⟩
    rw [List.flatMap_cons, List.append_assoc]
    exact hp hpieces

/-- A string reads back after its opening quote. -/
theorem string_flatMap_escaped (s : String) (rest : List Char) :
    string (s.toList.flatMap Printer.escaped ++ '"' :: rest) = some (some s, rest) := by
  obtain ⟨ps, hpieces, hcharacters⟩ := pieces_flatMap_escaped s.toList rest
  simp [string, hpieces, hcharacters]

end Sema.Json.Reader
