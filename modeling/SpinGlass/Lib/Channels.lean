import Mathlib.Data.List.Nodup
import Mathlib.Data.List.Perm.Subperm
import Mathlib.Logic.Function.Basic

/-!
# Channels — what is sent over queues, what is received, what is on the way

Items are sent over channels of the type `I`, each a queue. Of every channel
the log of what was sent is the log of what was received with the queue
behind it (`Conserved`); sending and receiving keep this. So nothing is lost,
doubled or overtaken: an item that was sent once is in one place
(`Conserved.one_place`), and the items of a channel are received in the order
in which they were sent.
-/

namespace Channels

variable {I A : Type*} [DecidableEq I]

/-- The items of channel `s` in a log. -/
def itemsOf (s : I) (log : List (I × A)) : List A :=
  (log.filter fun p => p.1 = s).map Prod.snd

@[simp] theorem itemsOf_nil (s : I) : itemsOf s ([] : List (I × A)) = [] := rfl

theorem itemsOf_concat (s s' : I) (log : List (I × A)) (a : A) :
    itemsOf s' (log ++ [(s, a)]) = itemsOf s' log ++ if s = s' then [a] else [] := by
  by_cases h : s = s'
  · simp [itemsOf, List.filter_append, h]
  · simp [itemsOf, List.filter_append, h]

theorem mem_itemsOf {s : I} {log : List (I × A)} {a : A} :
    a ∈ itemsOf s log ↔ (s, a) ∈ log := by
  simp [itemsOf]

theorem itemsOf_sublist (s : I) (log : List (I × A)) :
    (itemsOf s log).Sublist (log.map Prod.snd) :=
  List.filter_sublist.map _

theorem count_itemsOf [DecidableEq A] (s : I) (log : List (I × A)) (a : A) :
    (itemsOf s log).count a = log.count (s, a) := by
  induction log with
  | nil => rfl
  | cons p log ih =>
      obtain ⟨s', a'⟩ := p
      by_cases hs : s' = s
      · by_cases ha : a' = a
        · simp [itemsOf, hs, ha] at ih ⊢
          exact ih
        · simp [itemsOf, hs, ha] at ih ⊢
          exact ih
      · simp [itemsOf, hs] at ih ⊢
        exact ih

/-- Of every channel, what was sent is what was received and what is on the way. -/
def Conserved (sent received : List (I × A)) (onTheWay : I → List A) : Prop :=
  ∀ s, itemsOf s sent = itemsOf s received ++ onTheWay s

namespace Conserved

variable {sent received : List (I × A)} {onTheWay : I → List A}

theorem start : Conserved ([] : List (I × A)) [] fun _ => [] := fun _ => rfl

theorem send (h : Conserved sent received onTheWay) (s : I) (a : A) :
    Conserved (sent ++ [(s, a)]) received
      (Function.update onTheWay s (onTheWay s ++ [a])) := by
  intro s'
  rw [itemsOf_concat, h s']
  by_cases hs : s = s'
  · subst hs
    simp
  · simp [hs, Function.update_of_ne (Ne.symm hs)]

theorem receive (h : Conserved sent received onTheWay) {s : I} {a : A} {rest : List A}
    (hfront : onTheWay s = a :: rest) :
    Conserved sent (received ++ [(s, a)]) (Function.update onTheWay s rest) := by
  intro s'
  rw [itemsOf_concat, h s']
  by_cases hs : s = s'
  · subst hs
    simp [hfront]
  · simp [hs, Function.update_of_ne (Ne.symm hs)]

variable (h : Conserved sent received onTheWay)

include h

/-- What was received of a channel is the beginning of what was sent. -/
theorem received_prefix (s : I) : itemsOf s received <+: itemsOf s sent :=
  ⟨onTheWay s, (h s).symm⟩

variable [DecidableEq A]

theorem count_eq (s : I) (a : A) :
    sent.count (s, a) = received.count (s, a) + (onTheWay s).count a := by
  rw [← count_itemsOf, ← count_itemsOf, h s, List.count_append]

theorem subperm : received.Subperm sent := by
  apply List.subperm_ext_iff.mpr
  intro p _
  rw [h.count_eq p.1 p.2]
  exact Nat.le_add_right _ _

theorem perm_of_empty (hempty : ∀ s, onTheWay s = []) : received.Perm sent := by
  apply List.perm_iff_count.mpr
  intro p
  rw [h.count_eq p.1 p.2, hempty p.1, List.count_nil, Nat.add_zero]

omit [DecidableEq A] in
theorem mem_sent_of_onTheWay {s : I} {a : A} (ha : a ∈ onTheWay s) : (s, a) ∈ sent := by
  rw [← mem_itemsOf, h s]
  exact List.mem_append_right _ ha

omit [DecidableEq A] in
theorem mem_sent_of_received {s : I} {a : A} (ha : (s, a) ∈ received) : (s, a) ∈ sent := by
  rw [← mem_itemsOf, h s]
  exact List.mem_append_left _ (mem_itemsOf.mpr ha)

variable (hn : (sent.map Prod.snd).Nodup)

include hn

omit h [DecidableEq I] [DecidableEq A] in
/-- An item that was sent once was sent over one channel. -/
theorem channel_unique {s s' : I} {a : A} (ha : (s, a) ∈ sent) (ha' : (s', a) ∈ sent) :
    s = s' := by
  have heq := List.inj_on_of_nodup_map hn ha ha' rfl
  exact congrArg Prod.fst heq

theorem count_eq_one {s : I} {a : A} (ha : (s, a) ∈ sent) :
    received.count (s, a) + (onTheWay s).count a = 1 := by
  rw [← h.count_eq s a]
  exact List.count_eq_one_of_mem (List.Nodup.of_map _ hn) ha

theorem nodup_received : (received.map Prod.snd).Nodup := by
  obtain ⟨l, hperm, hsub⟩ := h.subperm
  exact (hperm.map Prod.snd).nodup_iff.mp (hn.sublist (hsub.map Prod.snd))

/-- What is on the way has not been received. -/
theorem notMem_received {s : I} {a : A} (ha : a ∈ onTheWay s) :
    a ∉ received.map Prod.snd := by
  intro hrec
  obtain ⟨⟨s', a'⟩, hmem, heq⟩ := List.mem_map.mp hrec
  obtain rfl : a' = a := heq
  have hsent := h.mem_sent_of_onTheWay ha
  obtain rfl := channel_unique hn hsent (h.mem_sent_of_received hmem)
  have hone := h.count_eq_one hn hsent
  have hway := List.count_pos_iff.mpr ha
  have hgot := List.count_pos_iff.mpr hmem
  omega

/-- **Exactly one place**: an item that was sent once is once in one queue, or was
received once. -/
theorem one_place {a : A} (ha : a ∈ sent.map Prod.snd) :
    (∃ s, (onTheWay s).count a = 1 ∧ (∀ s', s' ≠ s → a ∉ onTheWay s') ∧
        a ∉ received.map Prod.snd) ∨
      ((received.map Prod.snd).count a = 1 ∧ ∀ s, a ∉ onTheWay s) := by
  obtain ⟨⟨s, a'⟩, hsent, heq⟩ := List.mem_map.mp ha
  obtain rfl : a' = a := heq
  have hone := h.count_eq_one hn hsent
  by_cases hway : a' ∈ onTheWay s
  · refine Or.inl ⟨s, ?_, fun s' hs' ha' => hs' ?_, h.notMem_received hn hway⟩
    · have hpos := List.count_pos_iff.mpr hway
      omega
    · exact channel_unique hn (h.mem_sent_of_onTheWay ha') hsent
  · refine Or.inr ⟨?_, fun s' ha' => ?_⟩
    · rw [List.count_eq_zero_of_not_mem hway] at hone
      have hmem : (s, a') ∈ received := List.count_pos_iff.mp (by omega)
      exact List.count_eq_one_of_mem (h.nodup_received hn) (List.mem_map_of_mem hmem)
    · obtain rfl := channel_unique hn (h.mem_sent_of_onTheWay ha') hsent
      exact hway ha'

end Conserved

end Channels
