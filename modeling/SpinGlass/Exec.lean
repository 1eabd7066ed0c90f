import SpinGlass.Lib.CountedLoop
import Mathlib.Algebra.Order.Field.Basic

/-!
# Exec — what a piece of the program can do wrong

The solver never checks an index or a divisor. The model does: every
vector access and every division that the program leaves unguarded goes
through `load`, `store` and `divide`, which end the computation with a
`Fault` where the program has undefined behaviour. A result of a function
of the model is therefore a run of the program without any of these.

Numbers of type `double` are exact elements of an ordered field `K`.
-/

namespace SpinGlass

open CountedLoop

/-- The ways in which a computation fails to return. -/
inductive Fault where
  /-- `std::stod` throws. -/
  | invalidArgument
  /-- A vector is read or written past its end. -/
  | outOfRange
  /-- A number is divided by zero. -/
  | divByZero
  /-- A loop has not ended within the fuel given to it. -/
  | outOfFuel
  deriving DecidableEq, Repr

abbrev Exec := Except Fault

/-- `xs[i]`, read. -/
def load {α : Type} (xs : List α) (i : ℕ) : Exec α :=
  match xs[i]? with
  | some x => .ok x
  | none => .error .outOfRange

/-- `xs[i] = x`. -/
def store {α : Type} (xs : List α) (i : ℕ) (x : α) : Exec (List α) :=
  if i < xs.length then .ok (xs.set i x) else .error .outOfRange

/-- `x / y`. -/
def divide {K : Type} [Field K] [LinearOrder K] (x y : K) : Exec K :=
  if y = 0 then .error .divByZero else .ok (x / y)

/-- `for (unsigned i = 0; i < bound; ++i) body`, on 32-bit counters. -/
def forUnsigned {σ : Type} (fuel bound : ℕ) (body : ℕ → σ → Exec σ) (s : σ) : Exec σ :=
  loop .outOfFuel (2 ^ 32) bound body fuel 0 s

/-- `n - 1` on `std::size_t`, which wraps at zero. -/
def pred64 (n : ℕ) : ℕ := if n = 0 then 2 ^ 64 - 1 else n - 1

/-! ## Equations -/

theorem load_eq_ok {α : Type} {xs : List α} {i : ℕ} {x : α} :
    load xs i = .ok x ↔ xs[i]? = some x := by
  unfold load
  cases xs[i]? <;> simp

theorem load_of_lt {α : Type} {xs : List α} {i : ℕ} (h : i < xs.length) :
    load xs i = .ok xs[i] := by
  rw [load_eq_ok, List.getElem?_eq_getElem h]

theorem store_of_lt {α : Type} {xs : List α} {i : ℕ} {x : α} (h : i < xs.length) :
    store xs i x = .ok (xs.set i x) := by
  rw [store, if_pos h]

theorem divide_of_ne {K : Type} [Field K] [LinearOrder K] {x y : K} (h : y ≠ 0) :
    divide x y = .ok (x / y) := by
  rw [divide, if_neg h]

theorem forUnsigned_ok_iff {σ : Type} {fuel bound : ℕ} {body : ℕ → σ → Exec σ} {s t : σ} :
    forUnsigned fuel bound body s = .ok t ↔
      bound < 2 ^ 32 ∧ bound < fuel ∧
        (List.range bound).foldlM (fun s i => body i s) s = .ok t :=
  loop_ok_iff (by decide)

theorem forUnsigned_eq {σ : Type} {fuel bound : ℕ} {body : ℕ → σ → Exec σ} {s : σ}
    (hb : bound < 2 ^ 32) (hf : bound < fuel) :
    forUnsigned fuel bound body s = (List.range bound).foldlM (fun s i => body i s) s :=
  loop_eq_foldlM hb hf s

theorem meets_forUnsigned {σ : Type} {fuel bound : ℕ} {body : ℕ → σ → Exec σ} {s : σ}
    {E : Fault → Prop} (P : ℕ → σ → Prop) (hE : E .outOfFuel)
    (hwrap : 2 ^ 32 ≤ bound → ∀ s, P (2 ^ 32) s → P 0 s)
    (hstep : ∀ i s, i < bound → P i s → Meets (body i s) E (P (i + 1))) (h0 : P 0 s) :
    Meets (forUnsigned fuel bound body s) E (P bound) :=
  meets_loop P (by decide) hE hwrap hstep h0

/-- The invariant rule for a loop whose bound fits the counter and the fuel: the loop
ends unless its body fails. -/
theorem meets_forUnsigned_of_lt {σ : Type} {fuel bound : ℕ} {body : ℕ → σ → Exec σ} {s : σ}
    {E : Fault → Prop} (P : ℕ → σ → Prop) (hb : bound < 2 ^ 32) (hf : bound < fuel)
    (hstep : ∀ i s, i < bound → P i s → Meets (body i s) E (P (i + 1))) (h0 : P 0 s) :
    Meets (forUnsigned fuel bound body s) E (P bound) := by
  rw [forUnsigned_eq hb hf]
  have hfold := meets_foldlM (E := E) (f := fun s i => body i s)
    (fun done s => P done.length s) (List.range bound) ?_ h0
  · rwa [List.length_range] at hfold
  · intro done i rest hsplit s hs
    have hi : i = done.length := by
      have h := congrArg (fun l => l[done.length]?) hsplit
      have hlt : done.length < bound := by
        have := congrArg List.length hsplit
        simp at this
        omega
      simpa [hlt, eq_comm] using h
    have hlt : i < bound := List.mem_range.mp (by rw [hsplit]; simp)
    subst hi
    rw [List.length_append, List.length_singleton]
    exact hstep _ s hlt hs

/-- Two loops in step. -/
theorem forUnsigned_map {σ τ : Type} {fuel bound : ℕ} {body : ℕ → σ → Exec σ}
    {body' : ℕ → τ → Exec τ} {π : σ → τ} {I : σ → Prop}
    (hturn : ∀ i s, i < bound → I s → body' i (π s) = (body i s).map π)
    (hkeeps : ∀ i s s', i < bound → I s → body i s = .ok s' → I s') {s : σ} (h0 : I s) :
    forUnsigned fuel bound body' (π s) = (forUnsigned fuel bound body s).map π :=
  loop_map hturn hkeeps h0

theorem pred64_of_pos {n : ℕ} (h : 0 < n) : pred64 n = n - 1 := by
  rw [pred64, if_neg (by omega)]

end SpinGlass
