import Mathlib.Data.List.Basic
import Mathlib.Tactic.Common

/-!
# CountedLoop — fallible folds and `for` loops with a wrapping counter

`Meets x E Q` is the outcome specification of a computation in
`Except ε`: a result satisfies `Q`, an error satisfies `E`. The rules
below compose it along `>>=`, along a fold over a list, and along
`loop`, the C loop `for (unsigned i = 0; i < bound; ++i) body` whose
counter has `w` values and wraps.

`loop` takes `fuel`, the number of times the loop test may be taken;
`loop_ok_iff` says exactly when it comes to an end, and with what
result: the bound is below `w`, and the result is the fold of the body
over `0 .. bound - 1`.
-/

namespace CountedLoop

universe u

variable {ε : Type*} {α β σ : Type u}

/-! ## Outcomes -/

/-- The outcome of `x`: a result satisfies `Q`, an error satisfies `E`. -/
def Meets (x : Except ε α) (E : ε → Prop) (Q : α → Prop) : Prop :=
  match x with
  | .ok a => Q a
  | .error e => E e

@[simp] theorem meets_ok {E : ε → Prop} {Q : α → Prop} {a : α} :
    Meets (.ok a) E Q ↔ Q a := Iff.rfl

@[simp] theorem meets_pure {E : ε → Prop} {Q : α → Prop} {a : α} :
    Meets (pure a) E Q ↔ Q a := Iff.rfl

@[simp] theorem meets_error {E : ε → Prop} {Q : α → Prop} {e : ε} :
    Meets (.error e) E Q ↔ E e := Iff.rfl

theorem Meets.mono {x : Except ε α} {E E' : ε → Prop} {Q Q' : α → Prop}
    (h : Meets x E Q) (hE : ∀ e, E e → E' e) (hQ : ∀ a, Q a → Q' a) :
    Meets x E' Q' := by
  cases x with
  | ok a => exact hQ a h
  | error e => exact hE e h

theorem Meets.of_ok {x : Except ε α} {E : ε → Prop} {Q : α → Prop}
    (h : Meets x E Q) {a : α} (hx : x = .ok a) : Q a := by
  subst hx
  exact h

theorem Meets.of_error {x : Except ε α} {E : ε → Prop} {Q : α → Prop}
    (h : Meets x E Q) {e : ε} (hx : x = .error e) : E e := by
  subst hx
  exact h

/-- A computation that is allowed no error has a result. -/
theorem Meets.exists_ok {x : Except ε α} {Q : α → Prop} (h : Meets x (fun _ => False) Q) :
    ∃ a, x = .ok a ∧ Q a := by
  cases x with
  | ok a => exact ⟨a, rfl, h⟩
  | error e => exact h.elim

theorem Meets.bind {x : Except ε α} {f : α → Except ε β} {E : ε → Prop}
    {Q : α → Prop} {R : β → Prop} (h : Meets x E Q)
    (hf : ∀ a, Q a → Meets (f a) E R) : Meets (x >>= f) E R := by
  cases x with
  | ok a => exact hf a h
  | error e => exact h

/-- A bind that comes to a result came to one at each of its two steps. -/
theorem bind_eq_ok {x : Except ε α} {f : α → Except ε β} {b : β} :
    x >>= f = .ok b ↔ ∃ a, x = .ok a ∧ f a = .ok b := by
  cases x with
  | ok a => exact ⟨fun h => ⟨a, rfl, h⟩, fun ⟨_, ha, h⟩ => by cases ha; exact h⟩
  | error e =>
      constructor
      · intro h
        cases h
      · rintro ⟨a, ha, -⟩
        cases ha

@[simp] theorem ok_bind (a : α) (f : α → Except ε β) : (Except.ok a >>= f) = f a := rfl

@[simp] theorem error_bind (e : ε) (f : α → Except ε β) :
    (Except.error e >>= f) = .error e := rfl

/-! ## Folds -/

/-- A loop that pushes back one result for every element returns just the lists of their
results. -/
theorem foldlM_push_eq_ok {f : α → Except ε β} {l : List α} {xs ys : List β} :
    l.foldlM (fun xs a => do
        let b ← f a
        .ok (xs ++ [b])) xs = .ok ys ↔
      ∃ bs, ys = xs ++ bs ∧ List.Forall₂ (fun a b => f a = .ok b) l bs := by
  induction l generalizing xs with
  | nil =>
      constructor
      · intro h
        cases h
        exact ⟨[], (List.append_nil _).symm, List.Forall₂.nil⟩
      · rintro ⟨bs, rfl, hbs⟩
        cases hbs
        rw [List.append_nil]
        rfl
  | cons a l ih =>
      rw [List.foldlM_cons, bind_eq_ok]
      constructor
      · rintro ⟨mid, hmid, h⟩
        obtain ⟨b, hb, hpush⟩ := bind_eq_ok.mp hmid
        cases hpush
        obtain ⟨bs, rfl, hbs⟩ := ih.mp h
        exact ⟨b :: bs, by rw [List.append_assoc, List.singleton_append], hbs.cons hb⟩
      · rintro ⟨bs, rfl, hbs⟩
        cases hbs with
        | @cons _ b _ bs hb hbs =>
            refine ⟨xs ++ [b], by rw [hb, ok_bind], ih.mpr ⟨bs, ?_, hbs⟩⟩
            rw [List.append_assoc, List.singleton_append]

/-- The invariant of a fold speaks of the part of the list already read. -/
theorem meets_foldlM {E : ε → Prop} {f : σ → α → Except ε σ}
    (P : List α → σ → Prop) (l : List α)
    (hstep : ∀ done x rest, l = done ++ x :: rest → ∀ s, P done s →
      Meets (f s x) E (P (done ++ [x])))
    {s : σ} (h0 : P [] s) : Meets (l.foldlM f s) E (P l) := by
  suffices h : ∀ (rest done : List α) (s : σ), l = done ++ rest → P done s →
      Meets (rest.foldlM f s) E (P l) from h l [] s rfl h0
  intro rest
  induction rest with
  | nil =>
      intro done s hl hs
      rw [List.append_nil] at hl
      subst hl
      exact hs
  | cons x rest ih =>
      intro done s hl hs
      rw [List.foldlM_cons]
      apply (hstep done x rest hl s hs).bind
      intro s' hs'
      exact ih (done ++ [x]) s' (by simp [hl]) hs'

/-- A fold whose steps never fail is the pure fold. -/
theorem foldlM_eq_foldl {f : σ → α → Except ε σ} {g : σ → α → σ} (l : List α)
    (h : ∀ x ∈ l, ∀ s, f s x = .ok (g s x)) (s : σ) :
    l.foldlM f s = .ok (l.foldl g s) := by
  induction l generalizing s with
  | nil => rfl
  | cons x l ih =>
      rw [List.foldlM_cons, h x (by simp), ok_bind, List.foldl_cons]
      exact ih (fun y hy => h y (by simp [hy])) _

/-! ## The loop -/

/-- `for (unsigned i = ..; i < bound; ++i) body`, entered with counter `i`:
`w` is the number of values of the counter's type, `stuck` the error of a
loop that has used up its `fuel`. -/
def loop (stuck : ε) (w bound : ℕ) (body : ℕ → σ → Except ε σ) :
    ℕ → ℕ → σ → Except ε σ
  | 0, _, _ => .error stuck
  | fuel + 1, i, s =>
      if i < bound then
        body i s >>= fun s' => loop stuck w bound body fuel ((i + 1) % w) s'
      else .ok s

variable {stuck : ε} {w bound : ℕ} {body : ℕ → σ → Except ε σ}

theorem loop_succ_of_lt {fuel i : ℕ} {s : σ} (h : i < bound) :
    loop stuck w bound body (fuel + 1) i s
      = body i s >>= fun s' => loop stuck w bound body fuel ((i + 1) % w) s' := by
  rw [loop, if_pos h]

theorem loop_succ_of_le {fuel i : ℕ} {s : σ} (h : bound ≤ i) :
    loop stuck w bound body (fuel + 1) i s = .ok s := by
  rw [loop, if_neg (by omega)]

/-- With a bound below `w` the counter never wraps, and enough fuel makes the
loop the fold of its body. -/
theorem loop_eq_foldlM_from (hb : bound < w) : ∀ (k fuel i : ℕ) (s : σ),
    i + k = bound → k < fuel →
    loop stuck w bound body fuel i s
      = (List.range' i k).foldlM (fun s i => body i s) s := by
  intro k
  induction k with
  | zero =>
      intro fuel i s hi hf
      obtain ⟨fuel, rfl⟩ : ∃ f, fuel = f + 1 := ⟨fuel - 1, by omega⟩
      rw [loop_succ_of_le (by omega)]
      rfl
  | succ k ih =>
      intro fuel i s hi hf
      obtain ⟨fuel, rfl⟩ : ∃ f, fuel = f + 1 := ⟨fuel - 1, by omega⟩
      rw [loop_succ_of_lt (by omega), List.range'_succ, List.foldlM_cons,
        Nat.mod_eq_of_lt (by omega)]
      congr 1
      funext s'
      exact ih fuel (i + 1) s' (by omega) (by omega)

theorem loop_eq_foldlM (hb : bound < w) {fuel : ℕ} (hf : bound < fuel) (s : σ) :
    loop stuck w bound body fuel 0 s
      = (List.range bound).foldlM (fun s i => body i s) s := by
  rw [loop_eq_foldlM_from hb bound fuel 0 s (by omega) hf, List.range_eq_range']

/-- Fuel that does not reach the bound is no result. -/
theorem loop_ne_ok_of_fuel (hb : bound < w) : ∀ (fuel i : ℕ) (s t : σ),
    fuel + i ≤ bound → loop stuck w bound body fuel i s ≠ .ok t := by
  intro fuel
  induction fuel with
  | zero =>
      intro i s t _ h
      cases h
  | succ fuel ih =>
      intro i s t hi h
      rw [loop_succ_of_lt (by omega), bind_eq_ok] at h
      obtain ⟨s', -, h⟩ := h
      rw [Nat.mod_eq_of_lt (by omega)] at h
      exact ih (i + 1) s' t (by omega) h

/-- A bound that the counter's type cannot hold is never reached. -/
theorem loop_ne_ok_of_wrap (hw : 0 < w) (hb : w ≤ bound) : ∀ (fuel i : ℕ) (s t : σ),
    i < w → loop stuck w bound body fuel i s ≠ .ok t := by
  intro fuel
  induction fuel with
  | zero =>
      intro i s t _ h
      cases h
  | succ fuel ih =>
      intro i s t hi h
      rw [loop_succ_of_lt (by omega), bind_eq_ok] at h
      obtain ⟨s', -, h⟩ := h
      exact ih _ s' t (Nat.mod_lt _ hw) h

/-- **When the loop ends, and with what**: the bound fits the counter, the fuel
covers it, and the result is the fold of the body. -/
theorem loop_ok_iff (hw : 0 < w) {fuel : ℕ} {s t : σ} :
    loop stuck w bound body fuel 0 s = .ok t ↔
      bound < w ∧ bound < fuel ∧
        (List.range bound).foldlM (fun s i => body i s) s = .ok t := by
  constructor
  · intro h
    have hb : bound < w := by
      by_contra hb
      exact loop_ne_ok_of_wrap hw (by omega) fuel 0 s t hw h
    have hf : bound < fuel := by
      by_contra hf
      exact loop_ne_ok_of_fuel hb fuel 0 s t (by omega) h
    exact ⟨hb, hf, by rw [← loop_eq_foldlM hb hf]; exact h⟩
  · rintro ⟨hb, hf, h⟩
    rw [loop_eq_foldlM hb hf]
    exact h

/-- **The invariant rule of the loop.** The invariant may follow the counter;
`hwrap` asks what becomes of it when a counter too narrow for the bound wraps. -/
theorem meets_loop {E : ε → Prop} (P : ℕ → σ → Prop) (hw : 0 < w) (hE : E stuck)
    (hwrap : w ≤ bound → ∀ s, P w s → P 0 s)
    (hstep : ∀ i s, i < bound → P i s → Meets (body i s) E (P (i + 1)))
    {fuel : ℕ} {s : σ} (h0 : P 0 s) :
    Meets (loop stuck w bound body fuel 0 s) E (P bound) := by
  suffices h : ∀ (fuel i : ℕ) (s : σ), i < w → i ≤ bound → P i s →
      Meets (loop stuck w bound body fuel i s) E (P bound) from
    h fuel 0 s hw (by omega) h0
  intro fuel
  induction fuel with
  | zero =>
      intro i s _ _ _
      exact hE
  | succ fuel ih =>
      intro i s hi hib hs
      by_cases hlt : i < bound
      · rw [loop_succ_of_lt hlt]
        apply (hstep i s hlt hs).bind
        intro s' hs'
        by_cases hiw : i + 1 = w
        · -- the counter wraps, which it can only when it is too narrow for the bound
          rw [hiw, Nat.mod_self]
          rw [hiw] at hs'
          exact ih 0 s' hw (by omega) (hwrap (by omega) s' hs')
        · rw [Nat.mod_eq_of_lt (by omega)]
          exact ih (i + 1) s' (by omega) (by omega) hs'
      · have hieq : i = bound := by omega
        subst hieq
        rw [loop_succ_of_le (Nat.le_refl _)]
        exact hs

/-- **Where the loop is when it ends**: what its turns lead to, with a counter that
fails the test. -/
theorem loop_reaches (R : ℕ → σ → Prop)
    (hstep : ∀ i s s', i < bound → R i s → body i s = .ok s' → R ((i + 1) % w) s') :
    ∀ {fuel i : ℕ} {s t : σ}, R i s → loop stuck w bound body fuel i s = .ok t →
      ∃ j, bound ≤ j ∧ R j t := by
  intro fuel
  induction fuel with
  | zero =>
      intro i s t _ h
      cases h
  | succ fuel ih =>
      intro i s t hR h
      by_cases hlt : i < bound
      · rw [loop_succ_of_lt hlt, bind_eq_ok] at h
        obtain ⟨s', hs', h⟩ := h
        exact ih (hstep i s s' hlt hR hs') h
      · rw [loop_succ_of_le (by omega)] at h
        cases h
        exact ⟨i, by omega, hR⟩

/-- **Two loops in step**: where `π` carries every turn of one body to the turn of the other,
it carries the one loop to the other. The turns keep the invariant `I`. -/
theorem loop_map {τ : Type u} {body' : ℕ → τ → Except ε τ} {π : σ → τ} {I : σ → Prop}
    (hturn : ∀ i s, i < bound → I s → body' i (π s) = (body i s).map π)
    (hkeeps : ∀ i s s', i < bound → I s → body i s = .ok s' → I s') :
    ∀ {fuel i : ℕ} {s : σ}, I s →
      loop stuck w bound body' fuel i (π s) = (loop stuck w bound body fuel i s).map π := by
  intro fuel
  induction fuel with
  | zero =>
      intro i s _
      rfl
  | succ fuel ih =>
      intro i s hs
      by_cases hlt : i < bound
      · rw [loop_succ_of_lt hlt, loop_succ_of_lt hlt, hturn i s hlt hs]
        cases hbody : body i s with
        | error e => rfl
        | ok s' => exact ih (hkeeps i s s' hlt hs hbody)
      · rw [loop_succ_of_le (by omega), loop_succ_of_le (by omega)]
        rfl

end CountedLoop
