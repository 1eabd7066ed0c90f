import Mathlib.Data.Int.Log
import Mathlib.Data.List.DropRight
import Mathlib.Data.Rat.Floor
import Mathlib.Tactic.FieldSimp
import Mathlib.Tactic.NormNum
import Mathlib.Tactic.Ring

/-!
# Decimal — numbers written and read in decimal

`formatF p` and `formatG p` are the conversions `%.pf` and `%.pg` of C, on
rational numbers: with `p` digits after the point, and with `p` significant
digits in the shorter of a plain and a scientific form. `int?` reads a sign
and decimal digits. An integer that `formatG` writes with its digits alone
`int?` reads back (`int?_formatG_of_lt`), and one with more digits than that
it writes in a form that is no integer (`int?_formatG_of_le`).
-/

namespace Decimal

/-! ## Reading -/

/-- One or more decimal digits. -/
def nat? (s : List Char) : Option ℕ :=
  if s ≠ [] ∧ s.all Char.isDigit then some (Nat.ofDigitChars 10 s 0) else none

/-- An optional sign and decimal digits. -/
def int? : List Char → Option ℤ
  | '-' :: s => (nat? s).map fun n => -(n : ℤ)
  | '+' :: s => (nat? s).map fun n => (n : ℤ)
  | s => (nat? s).map fun n => (n : ℤ)

/-! ## Writing -/

/-- The integer nearest to `x`, which is not negative; of two the even one. -/
def roundHalfEven (x : ℚ) : ℕ :=
  let q := ⌊x⌋₊
  if x - q < 1 / 2 then q
  else if 1 / 2 < x - q then q + 1
  else if q % 2 = 0 then q else q + 1

/-- `x`, which is not negative, with `p` digits after the point. -/
def fixed (p : ℕ) (x : ℚ) : List Char :=
  let m := roundHalfEven (x * 10 ^ p)
  Nat.toDigits 10 (m / 10 ^ p) ++
    if p = 0 then [] else '.' :: List.leftpad p '0' (Nat.toDigits 10 (m % 10 ^ p))

/-- `%.pf`. -/
def formatF (p : ℕ) (x : ℚ) : List Char :=
  if x < 0 then '-' :: fixed p (-x) else fixed p x

/-- Without the zeros at the end of a fraction, and a point that is then the last. -/
def strip (s : List Char) : List Char :=
  if '.' ∈ s then (s.rdropWhile (· = '0')).rdropWhile (· = '.') else s

/-- The exponent of `x`, which is not negative, when it is rounded to `p` digits. -/
def exponent (p : ℕ) (x : ℚ) : ℤ :=
  if x = 0 then 0
  else
    let e := Int.log 10 x
    if roundHalfEven (x * 10 ^ ((p : ℤ) - 1 - e)) = 10 ^ p then e + 1 else e

/-- The exponent as it is written: a sign and at least two digits. -/
def exponentDigits (e : ℤ) : List Char :=
  (if e < 0 then '-' else '+') :: List.leftpad 2 '0' (Nat.toDigits 10 e.natAbs)

/-- `x`, which is not negative, with `p` significant digits. -/
def general (p : ℕ) (x : ℚ) : List Char :=
  let e := exponent p x
  if -4 ≤ e ∧ e < p then strip (fixed ((p : ℤ) - 1 - e).toNat x)
  else strip (fixed (p - 1) (x / 10 ^ e)) ++ 'e' :: exponentDigits e

/-- `%.pg`. -/
def formatG (p : ℕ) (x : ℚ) : List Char :=
  if x < 0 then '-' :: general p (-x) else general p x

/-! ## Integers -/

theorem roundHalfEven_natCast (n : ℕ) : roundHalfEven (n : ℚ) = n := by
  simp [roundHalfEven]

theorem nat?_toDigits (n : ℕ) : nat? (Nat.toDigits 10 n) = some n := by
  have hdigits : (Nat.toDigits 10 n).all Char.isDigit = true := by
    rw [List.all_eq_true]
    exact fun c hc => Nat.isDigit_of_mem_toDigits (by omega) (Nat.le_refl 10) hc
  rw [nat?, if_pos ⟨Nat.toDigits_ne_nil, hdigits⟩, Nat.ofDigitChars_ten_toDigits]

theorem nat?_of_mem {c : Char} (hc : c.isDigit = false) {s : List Char} (h : c ∈ s) :
    nat? s = none := by
  rw [nat?, if_neg]
  rintro ⟨-, hall⟩
  rw [List.all_eq_true] at hall
  rw [hall c h] at hc
  cases hc

/-- Digits do not look like a sign. -/
theorem int?_toDigits (n : ℕ) : int? (Nat.toDigits 10 n) = some (n : ℤ) := by
  have hdigit : ∀ c ∈ Nat.toDigits 10 n, c.isDigit = true := fun c hc =>
    Nat.isDigit_of_mem_toDigits (by omega) (Nat.le_refl 10) hc
  have hread := nat?_toDigits n
  generalize Nat.toDigits 10 n = s at hdigit hread
  unfold int?
  split
  · exact absurd (hdigit '-' (by simp)) (by decide)
  · exact absurd (hdigit '+' (by simp)) (by decide)
  · rw [hread]
    rfl

theorem int?_neg_toDigits (n : ℕ) : int? ('-' :: Nat.toDigits 10 n) = some (-(n : ℤ)) := by
  rw [int?, nat?_toDigits]
  rfl

/-- A character that is neither a digit nor a sign is in no integer. -/
theorem int?_of_mem {c : Char} (hc : c.isDigit = false) (hplus : c ≠ '+') (hminus : c ≠ '-')
    {s : List Char} (h : c ∈ s) : int? s = none := by
  unfold int?
  split
  · rw [nat?_of_mem hc ((List.mem_cons.mp h).resolve_left hminus)]
    rfl
  · rw [nat?_of_mem hc ((List.mem_cons.mp h).resolve_left hplus)]
    rfl
  · rw [nat?_of_mem hc h]
    rfl

theorem not_mem_toDigits {c : Char} (hc : c.isDigit = false) (n : ℕ) :
    c ∉ Nat.toDigits 10 n := by
  intro h
  rw [Nat.isDigit_of_mem_toDigits (by omega) (Nat.le_refl 10) h] at hc
  cases hc

/-- A fraction of zeros is left out. -/
theorem strip_zeros {s : List Char} (hpoint : '.' ∉ s) (p : ℕ) :
    strip (s ++ '.' :: List.replicate p '0') = s := by
  have hzeros : (s ++ '.' :: List.replicate p '0').rdropWhile (· = '0') = s ++ ['.'] := by
    induction p with
    | zero => exact List.rdropWhile_concat_neg _ _ _ (by decide)
    | succ p ih =>
        rw [List.replicate_succ', ← List.cons_append, ← List.append_assoc,
          List.rdropWhile_concat_pos _ _ _ (by decide), ih]
  have hself : s.rdropWhile (· = '.') = s := by
    rw [List.rdropWhile_eq_self_iff]
    intro hne hlast
    rw [decide_eq_true_eq] at hlast
    exact hpoint (hlast ▸ List.getLast_mem hne)
  rw [strip, if_pos (by simp), hzeros, List.rdropWhile_concat_pos _ _ _ (by decide), hself]

/-- An integer with a fraction of `p` zeros. -/
theorem strip_fixed_natCast (p n : ℕ) : strip (fixed p (n : ℚ)) = Nat.toDigits 10 n := by
  have hpoint := not_mem_toDigits (c := '.') (by decide) n
  have hround : roundHalfEven ((n : ℚ) * 10 ^ p) = n * 10 ^ p := by
    rw [show (n : ℚ) * 10 ^ p = ((n * 10 ^ p : ℕ) : ℚ) by push_cast; ring,
      roundHalfEven_natCast]
  have hpos : 0 < 10 ^ p := Nat.pow_pos (by omega)
  rw [fixed, hround, Nat.mul_div_cancel _ hpos, Nat.mul_mod_left]
  by_cases hp : p = 0
  · subst hp
    rw [if_pos rfl, List.append_nil, strip, if_neg hpoint]
  · have hzeros : List.leftpad p '0' (Nat.toDigits 10 0) = List.replicate p '0' := by
      obtain ⟨q, rfl⟩ := Nat.exists_eq_succ_of_ne_zero hp
      show List.replicate (q + 1 - 1) '0' ++ ['0'] = _
      rw [Nat.add_sub_cancel, List.replicate_succ']
    rw [if_neg hp, hzeros, strip_zeros hpoint]

/-- The exponent of an integer is one less than the number of its digits, as long as these
are not more than those that are written. -/
theorem exponent_natCast {p n : ℕ} (hn : n ≠ 0) (hlt : n < 10 ^ p) :
    exponent p (n : ℚ) = Nat.log 10 n := by
  have hlog : Nat.log 10 n < p := Nat.log_lt_of_lt_pow hn hlt
  have hshift : (p : ℤ) - 1 - (Nat.log 10 n : ℕ) = ((p - 1 - Nat.log 10 n : ℕ) : ℤ) := by omega
  have hround : roundHalfEven ((n : ℚ) * 10 ^ ((p : ℤ) - 1 - (Nat.log 10 n : ℕ)))
      = n * 10 ^ (p - 1 - Nat.log 10 n) := by
    rw [hshift, zpow_natCast,
      show (n : ℚ) * 10 ^ (p - 1 - Nat.log 10 n)
        = ((n * 10 ^ (p - 1 - Nat.log 10 n) : ℕ) : ℚ) by push_cast; ring,
      roundHalfEven_natCast]
  have hfit : n * 10 ^ (p - 1 - Nat.log 10 n) < 10 ^ p := by
    have hdigits := Nat.lt_pow_succ_log_self (b := 10) (by omega) n
    calc n * 10 ^ (p - 1 - Nat.log 10 n)
        < 10 ^ (Nat.log 10 n + 1) * 10 ^ (p - 1 - Nat.log 10 n) :=
          Nat.mul_lt_mul_of_pos_right hdigits (Nat.pow_pos (by omega))
      _ = 10 ^ p := by rw [← Nat.pow_add]; congr 1; omega
  rw [exponent, if_neg (by exact_mod_cast hn), Int.log_natCast]
  show (if roundHalfEven ((n : ℚ) * 10 ^ ((p : ℤ) - 1 - (Nat.log 10 n : ℕ))) = 10 ^ p then _
    else _) = _
  rw [hround, if_neg hfit.ne]

/-- **An integer of at most `p` digits is written with its digits.** -/
theorem general_natCast {p n : ℕ} (hp : 0 < p) (hlt : n < 10 ^ p) :
    general p (n : ℚ) = Nat.toDigits 10 n := by
  by_cases hn : n = 0
  · subst hn
    have hexp : exponent p ((0 : ℕ) : ℚ) = 0 := by simp [exponent]
    rw [general, hexp, if_pos (by omega), strip_fixed_natCast]
  · have hlog : Nat.log 10 n < p := Nat.log_lt_of_lt_pow hn hlt
    rw [general, exponent_natCast hn hlt, if_pos (by omega), strip_fixed_natCast]

/-- **A longer one is written with an exponent.** -/
theorem mem_general_of_le {p n : ℕ} (hle : 10 ^ p ≤ n) : 'e' ∈ general p (n : ℚ) := by
  have hn : n ≠ 0 := by
    have : 0 < 10 ^ p := Nat.pow_pos (by omega)
    omega
  have hlog : p ≤ Nat.log 10 n := Nat.le_log_of_pow_le (by omega) hle
  have hexp : (p : ℤ) ≤ exponent p (n : ℚ) := by
    rw [exponent, if_neg (by exact_mod_cast hn), Int.log_natCast]
    dsimp only
    split <;> omega
  rw [general, if_neg (by omega)]
  simp

theorem formatG_intCast (p : ℕ) (n : ℤ) :
    formatG p (n : ℚ)
      = if n < 0 then '-' :: general p ((n.natAbs : ℕ) : ℚ) else general p ((n.natAbs : ℕ) : ℚ) := by
  by_cases hn : n < 0
  · have habs : -(n : ℚ) = ((n.natAbs : ℕ) : ℚ) := by
      rw [← Int.cast_natCast, Int.ofNat_natAbs_of_nonpos hn.le, Int.cast_neg]
    rw [formatG, if_pos (by exact_mod_cast hn), if_pos hn, habs]
  · have habs : (n : ℚ) = ((n.natAbs : ℕ) : ℚ) := by
      rw [← Int.cast_natCast, Int.natAbs_of_nonneg (by omega)]
    rw [formatG, if_neg (by exact_mod_cast hn), if_neg hn, ← habs]

/-- **What is written with its digits is read back.** -/
theorem int?_formatG_of_lt {p : ℕ} (hp : 0 < p) {n : ℤ} (hlt : n.natAbs < 10 ^ p) :
    int? (formatG p (n : ℚ)) = some n := by
  rw [formatG_intCast, general_natCast hp hlt]
  by_cases hn : n < 0
  · rw [if_pos hn, int?_neg_toDigits, Int.ofNat_natAbs_of_nonpos hn.le, neg_neg]
  · rw [if_neg hn, int?_toDigits, Int.natAbs_of_nonneg (by omega)]

theorem mem_formatG_of_le {p : ℕ} {n : ℤ} (hle : 10 ^ p ≤ n.natAbs) :
    'e' ∈ formatG p (n : ℚ) := by
  have hmem := mem_general_of_le hle
  rw [formatG_intCast]
  split
  · exact List.mem_cons_of_mem _ hmem
  · exact hmem

/-- **An exponent is in no integer.** -/
theorem int?_formatG_of_le {p : ℕ} {n : ℤ} (hle : 10 ^ p ≤ n.natAbs) :
    int? (formatG p (n : ℚ)) = none :=
  int?_of_mem (by decide) (by decide) (by decide) (mem_formatG_of_le hle)

theorem formatG_ne_nil {p : ℕ} (hp : 0 < p) (n : ℤ) : formatG p (n : ℚ) ≠ [] := by
  by_cases hlt : n.natAbs < 10 ^ p
  · rw [formatG_intCast, general_natCast hp hlt]
    split
    · simp
    · exact Nat.toDigits_ne_nil
  · exact List.ne_nil_of_mem (mem_formatG_of_le (by omega))

/-! ## The characters of a number -/

/-- The characters that numbers are written with. -/
def IsNumeral (c : Char) : Prop := c.isDigit = true ∨ c ∈ ['.', 'e', '+', '-']

theorem isNumeral_of_mem_toDigits {n : ℕ} {c : Char} (h : c ∈ Nat.toDigits 10 n) :
    IsNumeral c :=
  Or.inl (Nat.isDigit_of_mem_toDigits (by omega) (Nat.le_refl 10) h)

theorem isNumeral_of_mem_leftpad {p n : ℕ} {c : Char}
    (h : c ∈ List.leftpad p '0' (Nat.toDigits 10 n)) : IsNumeral c := by
  rcases List.mem_append.mp h with h | h
  · rw [List.eq_of_mem_replicate h]
    exact Or.inl (by decide)
  · exact isNumeral_of_mem_toDigits h

theorem isNumeral_of_mem_fixed {p : ℕ} {x : ℚ} {c : Char} (h : c ∈ fixed p x) :
    IsNumeral c := by
  rw [fixed] at h
  rcases List.mem_append.mp h with h | h
  · exact isNumeral_of_mem_toDigits h
  · split at h
    · cases h
    · rcases List.mem_cons.mp h with rfl | h
      · exact Or.inr (by simp)
      · exact isNumeral_of_mem_leftpad h

theorem isNumeral_of_mem_formatF {p : ℕ} {x : ℚ} {c : Char} (h : c ∈ formatF p x) :
    IsNumeral c := by
  rw [formatF] at h
  split at h
  · rcases List.mem_cons.mp h with rfl | h
    · exact Or.inr (by simp)
    · exact isNumeral_of_mem_fixed h
  · exact isNumeral_of_mem_fixed h

theorem mem_of_mem_strip {s : List Char} {c : Char} (h : c ∈ strip s) : c ∈ s := by
  rw [strip] at h
  split at h
  · exact (List.rdropWhile_prefix _ _).subset ((List.rdropWhile_prefix _ _).subset h)
  · exact h

theorem isNumeral_of_mem_general {p : ℕ} {x : ℚ} {c : Char} (h : c ∈ general p x) :
    IsNumeral c := by
  rw [general] at h
  split at h
  · exact isNumeral_of_mem_fixed (mem_of_mem_strip h)
  · rcases List.mem_append.mp h with h | h
    · exact isNumeral_of_mem_fixed (mem_of_mem_strip h)
    · rcases List.mem_cons.mp h with rfl | h
      · exact Or.inr (by simp)
      · rcases List.mem_cons.mp h with rfl | h
        · split <;> exact Or.inr (by simp)
        · exact isNumeral_of_mem_leftpad h

theorem isNumeral_of_mem_formatG {p : ℕ} {x : ℚ} {c : Char} (h : c ∈ formatG p x) :
    IsNumeral c := by
  rw [formatG] at h
  split at h
  · rcases List.mem_cons.mp h with rfl | h
    · exact Or.inr (by simp)
    · exact isNumeral_of_mem_general h
  · exact isNumeral_of_mem_general h

/-! ## Samples -/

example : formatG 6 (-214) = "-214".toList := by decide +kernel

example : formatG 6 1000000 = "1e+06".toList := by decide +kernel

example : formatG 6 (1234565 / 10) = "123456".toList := by decide +kernel

example : formatF 6 (1 / 10) = "0.100000".toList := by decide +kernel

end Decimal
