import Mathlib.Data.List.Perm.Basic
import Mathlib.Tactic.Common

/-!
# Network — messages in flight

A network is the list of the messages that have been sent and not been
delivered. Any of them can be delivered next (`take`), so the list stands for
a transport that neither loses nor doubles a message and promises no order.
`inFlight f a` counts the messages that carry the token `a`; sending and
delivering change this number by what the message carries, which is how the
tokens of a protocol are conserved.
-/

namespace Network

variable {M A : Type*}

/-- The message at position `k` is delivered. -/
def take (k : ℕ) (net : List M) : Option (M × List M) :=
  net[k]?.map fun m => (m, net.eraseIdx k)

/-- What is delivered was in flight, and the rest still is. -/
theorem take_perm {k : ℕ} {net rest : List M} {m : M} (h : take k net = some (m, rest)) :
    net.Perm (m :: rest) := by
  obtain ⟨m', hget, heq⟩ := Option.map_eq_some_iff.mp h
  obtain ⟨rfl, rfl⟩ := Prod.mk.inj heq
  obtain ⟨hk, rfl⟩ := List.getElem?_eq_some_iff.mp hget
  exact (List.getElem_cons_eraseIdx_perm hk).symm

/-- Every message in flight can be delivered. -/
theorem exists_take {net : List M} {m : M} (h : m ∈ net) :
    ∃ k rest, take k net = some (m, rest) := by
  obtain ⟨k, hk, hget⟩ := List.mem_iff_getElem.mp h
  refine ⟨k, net.eraseIdx k, ?_⟩
  rw [take, List.getElem?_eq_getElem hk, hget, Option.map_some]

theorem mem_of_take {k : ℕ} {net rest : List M} {m : M} (h : take k net = some (m, rest)) :
    m ∈ net :=
  (take_perm h).mem_iff.mpr (List.mem_cons_self ..)

theorem mem_of_mem_rest {k : ℕ} {net rest : List M} {m m' : M}
    (h : take k net = some (m, rest)) (hm : m' ∈ rest) : m' ∈ net :=
  (take_perm h).mem_iff.mpr (List.mem_cons_of_mem _ hm)

section Tokens

variable [DecidableEq A] {f : M → Option A} {a : A}

/-- The number of messages in flight that carry the token `a`. -/
def inFlight (f : M → Option A) (a : A) (net : List M) : ℕ := net.countP fun m => f m = some a

@[simp] theorem inFlight_nil : inFlight f a [] = 0 := rfl

@[simp] theorem inFlight_append (net net' : List M) :
    inFlight f a (net ++ net') = inFlight f a net + inFlight f a net' :=
  List.countP_append

@[simp] theorem inFlight_cons (m : M) (net : List M) :
    inFlight f a (m :: net) = inFlight f a net + if f m = some a then 1 else 0 := by
  rw [inFlight, List.countP_cons]
  simp [inFlight]

theorem inFlight_take {k : ℕ} {net rest : List M} {m : M} (h : take k net = some (m, rest)) :
    inFlight f a net = inFlight f a rest + if f m = some a then 1 else 0 := by
  rw [← inFlight_cons, inFlight, inFlight]
  exact (take_perm h).countP_eq _

/-- Messages without a token do not count. -/
theorem inFlight_eq_zero {net : List M} (h : ∀ m ∈ net, f m = none) : inFlight f a net = 0 := by
  refine List.countP_eq_zero.mpr fun m hm => ?_
  simp [h m hm]

theorem inFlight_pos {net : List M} {m : M} (hm : m ∈ net) (hf : f m = some a) :
    0 < inFlight f a net :=
  List.countP_pos_iff.mpr ⟨m, hm, by simp [hf]⟩

theorem exists_of_inFlight_pos {net : List M} (h : 0 < inFlight f a net) :
    ∃ m ∈ net, f m = some a := by
  obtain ⟨m, hm, hf⟩ := List.countP_pos_iff.mp h
  exact ⟨m, hm, by simpa using hf⟩

/-- A message for each item of a list, with the item as its token. -/
theorem inFlight_map [BEq A] [LawfulBEq A] {g : A → M} (h : ∀ x, f (g x) = some x) (l : List A) :
    inFlight f a (l.map g) = l.count a := by
  induction l with
  | nil => rfl
  | cons x l ih =>
      rw [List.map_cons, inFlight_cons, ih, h x, List.count_cons]
      simp

theorem inFlight_map_none {B : Type*} {g : B → M} (h : ∀ x, f (g x) = none) (l : List B) :
    inFlight f a (l.map g) = 0 := by
  apply inFlight_eq_zero
  intro m hm
  obtain ⟨x, -, rfl⟩ := List.mem_map.mp hm
  exact h x

end Tokens

end Network
