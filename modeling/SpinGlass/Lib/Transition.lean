import Mathlib.Order.RelClasses
import Mathlib.Tactic.Common

/-!
# Transition — runs of a system that takes one event at a time

A system is a partial function: `step e s` is the state after event `e` in
state `s`, or `none` when `e` cannot happen in `s`. `Reaches step ok s t`
says that some events, all admitted by `ok`, lead from `s` to `t`. The rules
are the induction over such a run, for properties of a state and of two
states, progress by a measure, and a bound on how often an event happens.
-/

namespace Transition

variable {E S : Type*}

/-- The state after a list of events, if each can happen in its turn. -/
def after (step : E → S → Option S) : List E → S → Option S
  | [], s => some s
  | e :: es, s => (step e s).bind (after step es)

@[simp] theorem after_nil (step : E → S → Option S) (s : S) : after step [] s = some s := rfl

@[simp] theorem after_cons (step : E → S → Option S) (e : E) (es : List E) (s : S) :
    after step (e :: es) s = (step e s).bind (after step es) := rfl

theorem after_append (step : E → S → Option S) (es es' : List E) (s : S) :
    after step (es ++ es') s = (after step es s).bind (after step es') := by
  induction es generalizing s with
  | nil => rfl
  | cons e es ih =>
      rw [List.cons_append, after_cons, after_cons]
      cases step e s with
      | none => rfl
      | some t => exact ih t

/-- Events that `ok` admits lead from `s` to `t`. -/
def Reaches (step : E → S → Option S) (ok : E → Prop) (s t : S) : Prop :=
  ∃ es, (∀ e ∈ es, ok e) ∧ after step es s = some t

variable {step : E → S → Option S} {ok : E → Prop}

namespace Reaches

theorem refl (s : S) : Reaches step ok s s := ⟨[], by simp, rfl⟩

theorem trans {s t u : S} (h : Reaches step ok s t) (h' : Reaches step ok t u) :
    Reaches step ok s u := by
  obtain ⟨es, hok, hrun⟩ := h
  obtain ⟨es', hok', hrun'⟩ := h'
  refine ⟨es ++ es', fun e he => ?_, ?_⟩
  · rcases List.mem_append.mp he with he | he
    · exact hok e he
    · exact hok' e he
  · rw [after_append, hrun]
    exact hrun'

theorem single {e : E} {s t : S} (he : ok e) (h : step e s = some t) : Reaches step ok s t :=
  ⟨[e], by simpa using he, by simp [h]⟩

theorem head {e : E} {s t u : S} (he : ok e) (h : step e s = some t)
    (h' : Reaches step ok t u) : Reaches step ok s u :=
  (single he h).trans h'

theorem mono {ok' : E → Prop} (hok : ∀ e, ok e → ok' e) {s t : S} (h : Reaches step ok s t) :
    Reaches step ok' s t := by
  obtain ⟨es, hes, hrun⟩ := h
  exact ⟨es, fun e he => hok e (hes e he), hrun⟩

/-- **Invariants**: what every event keeps holds at the end of a run. -/
theorem invariant {P : S → Prop} {s t : S} (h : Reaches step ok s t)
    (hstep : ∀ e u v, ok e → P u → step e u = some v → P v) (h0 : P s) : P t := by
  obtain ⟨es, hok, hrun⟩ := h
  induction es generalizing s with
  | nil =>
      cases hrun
      exact h0
  | cons e es ih =>
      rw [after_cons] at hrun
      obtain ⟨u, hu, hrest⟩ := Option.bind_eq_some_iff.mp hrun
      exact ih (hstep e s u (hok e (by simp)) h0 hu) (fun e he => hok e (by simp [he])) hrest

/-- **Relations**: a preorder that every event keeps under an invariant relates the two
ends of a run. -/
theorem relates {P : S → Prop} {r : S → S → Prop} {s t : S} (h : Reaches step ok s t)
    (hinv : ∀ e u v, ok e → P u → step e u = some v → P v)
    (hrefl : ∀ s, r s s) (htrans : ∀ s t u, r s t → r t u → r s u)
    (hstep : ∀ e u v, ok e → P u → step e u = some v → r u v) (h0 : P s) : r s t := by
  have hboth : P t ∧ r s t := by
    refine h.invariant (P := fun v => P v ∧ r s v) (fun e u v he hu huv => ?_) ⟨h0, hrefl s⟩
    exact ⟨hinv e u v he hu.1 huv, htrans s u v hu.2 (hstep e u v he hu.1 huv)⟩
  exact hboth.2

/-- **Refinement**: when every event under an invariant is matched by a run of another
system between the abstractions of its ends, so is every run. -/
theorem refines {E' S' : Type*} {step' : E' → S' → Option S'} {ok' : E' → Prop} {P : S → Prop}
    {s t : S} (h : Reaches step ok s t) (abs : S → S')
    (hinv : ∀ e u v, ok e → P u → step e u = some v → P v)
    (hstep : ∀ e u v, ok e → P u → step e u = some v → Reaches step' ok' (abs u) (abs v))
    (h0 : P s) : Reaches step' ok' (abs s) (abs t) := by
  apply h.relates (P := P) (r := fun u v => Reaches step' ok' (abs u) (abs v)) hinv
  · exact fun u => refl (abs u)
  · exact fun u v w huv hvw => huv.trans hvw
  · exact hstep
  · exact h0

end Reaches

/-- **Progress**: when outside of `goal` some event always makes the measure smaller, a
state of `goal` is reached. -/
theorem exists_reaches_of_measure {M : Type*} [LT M] [WellFoundedLT M] (P goal : S → Prop)
    (μ : S → M)
    (hstep : ∀ s, P s → ¬ goal s →
      ∃ e t, ok e ∧ step e s = some t ∧ P t ∧ μ t < μ s)
    {s : S} (hs : P s) : ∃ t, Reaches step ok s t ∧ P t ∧ goal t := by
  induction hμ : μ s using WellFoundedLT.induction generalizing s with
  | ind m ih =>
      by_cases hg : goal s
      · exact ⟨s, Reaches.refl s, hs, hg⟩
      · obtain ⟨e, t, he, het, ht, hlt⟩ := hstep s hs hg
        obtain ⟨u, hu, hPu, hgu⟩ := ih (μ t) (hμ ▸ hlt) ht rfl
        exact ⟨u, hu.head he het, hPu, hgu⟩

/-- **Bounds**: an event that makes the measure smaller, which no other event makes larger,
happens at most as often as the measure says. -/
theorem count_le_of_measure [DecidableEq E] {P : S → Prop} {μ : S → ℕ} {e₀ : E}
    (hkeep : ∀ e u v, ok e → P u → step e u = some v → P v)
    (hlt : ∀ u v, ok e₀ → P u → step e₀ u = some v → μ v < μ u)
    (hle : ∀ e u v, ok e → P u → step e u = some v → μ v ≤ μ u) {es : List E} {s t : S}
    (hok : ∀ e ∈ es, ok e) (hs : P s) (hrun : after step es s = some t) :
    es.count e₀ + μ t ≤ μ s := by
  induction es generalizing s with
  | nil =>
      cases hrun
      simp
  | cons e es ih =>
      rw [after_cons] at hrun
      obtain ⟨u, hu, hrest⟩ := Option.bind_eq_some_iff.mp hrun
      have he := hok e (by simp)
      have hind := ih (fun e he => hok e (by simp [he])) (hkeep e s u he hs hu) hrest
      by_cases heq : e = e₀
      · subst heq
        have := hlt s u he hs hu
        rw [List.count_cons_self]
        omega
      · have := hle e s u he hs hu
        rw [List.count_cons_of_ne heq]
        omega

end Transition
