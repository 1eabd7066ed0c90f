import SpinGlass.Reading
import Mathlib.Data.List.Range

/-!
# Incidence — what the constructor has built

`edgesOf ls` lists the edges that stay after the constructor has dropped
the repetitions. `Incidence H edges` says that the node of every site holds
exactly the edges that name the site, once each and in the order of the
file. `hamiltonianType_built` proves it of every file on which the
constructor returns.
-/

namespace SpinGlass

open Text KeepFirst CountedLoop

variable {K : Type}

/-- The edges of the file, without repetitions. -/
def edgesOf (ls : List (List Str × K)) : List (EdgeType K) :=
  keepFirst Prod.fst (ls.map (numbered (siteNames ls)))

/-- The node of every site holds the edges that name it. -/
structure Incidence (H : HamiltonianType K) (edges : List (EdgeType K)) : Prop where
  nodes : H.nodes_ = (List.range H.size).map fun a => edges.filter fun e => a ∈ e.1
  sites_lt : ∀ e ∈ edges, ∀ a ∈ e.1, a < H.size

/-- `H` is the Hamiltonian of the coupling lines `ls`. -/
structure Built (H : HamiltonianType K) (ls : List (List Str × K)) : Prop where
  size : H.size = (siteNames ls).length
  incidence : Incidence H (edgesOf ls)

theorem Incidence.load {H : HamiltonianType K} {edges : List (EdgeType K)}
    (h : Incidence H edges) {a : ℕ} (ha : a < H.size) :
    load H.nodes_ a = .ok (edges.filter fun e => a ∈ e.1) := by
  rw [load_eq_ok, h.nodes, List.getElem?_map, List.getElem?_range ha]
  rfl

/-! ## Filling the nodes -/

/-- `nodes_` is the table of `f`, and `edge_sets` holds the marks of what it holds. -/
structure Filled (N : ℕ) (f : ℕ → NodeType K) (st : FillState K) : Prop where
  nodes : st.nodes = (List.range N).map f
  edgeSets : st.edgeSets = (List.range N).map fun a => (f a).map fun e => tostring e.1

theorem map_range_set {α : Type} (f : ℕ → α) (N a : ℕ) (x : α) :
    ((List.range N).map f).set a x = (List.range N).map (Function.update f a x) := by
  apply List.ext_getElem
  · simp
  · intro i hi hi'
    simp only [List.getElem_set, List.getElem_map, List.getElem_range, Function.update_apply,
      eq_comm]

theorem Filled.congr {N : ℕ} {f g : ℕ → NodeType K} {st : FillState K}
    (h : Filled N f st) (hfg : f = g) : Filled N g st := by
  subst hfg
  exact h

/-- One edge and one of its sites: the edge is added to the node of the site
unless it is there. -/
theorem fillNode_filled {N : ℕ} {f : ℕ → NodeType K} {st : FillState K}
    (h : Filled N f st) (edge : EdgeType K) {a : ℕ} (ha : a < N) :
    Meets (fillNode edge st a) (fun _ => False)
      (Filled N (Function.update f a
        (if edge.1 ∈ (f a).map Prod.fst then f a else f a ++ [edge]))) := by
  -- `edge_sets[a]` holds the marks of the edges in `nodes_[a]`, and no others
  have hseen : load st.edgeSets a = .ok ((f a).map fun e => tostring e.1) := by
    rw [load_eq_ok, h.edgeSets, List.getElem?_map, List.getElem?_range ha]
    rfl
  have hnode : load st.nodes a = .ok (f a) := by
    rw [load_eq_ok, h.nodes, List.getElem?_map, List.getElem?_range ha]
    rfl
  have hmark : tostring edge.1 ∈ (f a).map (fun e => tostring e.1)
      ↔ edge.1 ∈ (f a).map Prod.fst := by
    simp only [List.mem_map, tostring_inj]
  rw [fillNode, hseen, ok_bind]
  by_cases hm : edge.1 ∈ (f a).map Prod.fst
  · rw [if_pos (hmark.mpr hm), if_pos hm, Function.update_eq_self]
    exact h
  · have hlen : a < st.nodes.length := by rw [h.nodes]; simpa using ha
    have hlen' : a < st.edgeSets.length := by rw [h.edgeSets]; simpa using ha
    rw [if_neg (fun hc => hm (hmark.mp hc)), if_neg hm, hnode, ok_bind, store_of_lt hlen,
      ok_bind, store_of_lt hlen', ok_bind]
    refine ⟨?_, ?_⟩
    · rw [h.nodes, map_range_set]
    · show st.edgeSets.set a _ = _
      rw [h.edgeSets, map_range_set]
      apply List.map_congr_left
      intro b _
      by_cases hb : b = a
      · subst hb
        simp
      · simp [Function.update_of_ne hb]

/-- All sites of one edge that no node holds yet. -/
theorem fillEdge_filled {N : ℕ} {done : List (EdgeType K)} {st : FillState K}
    (h : Filled N (fun a => done.filter fun e => a ∈ e.1) st) {edge : EdgeType K}
    (hnew : edge.1 ∉ done.map Prod.fst) (hsites : ∀ a ∈ edge.1, a < N) :
    Meets (edge.1.foldlM (fillNode edge) st) (fun _ => False)
      (Filled N (fun a => (done ++ [edge]).filter fun e => a ∈ e.1)) := by
  -- after the sites `ds` the edge has reached exactly the nodes in `ds`
  have hloop := meets_foldlM (E := fun _ => False) (f := fillNode edge)
    (fun ds st => Filled N (fun a => (done.filter fun e => a ∈ e.1)
      ++ if a ∈ ds then [edge] else []) st) edge.1 ?_ (s := st)
    (h.congr (by funext a; simp))
  · refine hloop.mono (fun _ he => he) fun st' h' => h'.congr ?_
    funext a
    rw [List.filter_append]
    by_cases ha : a ∈ edge.1 <;> simp [ha]
  · intro ds a rest hsplit st' h'
    refine (fillNode_filled h' edge (hsites a (by simp [hsplit]))).mono (fun _ he => he)
      fun st'' h'' => h''.congr ?_
    have hold : edge.1 ∉ (done.filter fun e => a ∈ e.1).map Prod.fst := fun hc =>
      hnew ((List.filter_sublist.map _).mem hc)
    funext b
    by_cases hb : b = a
    · subst hb
      rw [Function.update_self]
      by_cases hd : b ∈ ds
      · simp [hd]
      · simp only [hd, if_false, List.append_nil, List.mem_append, List.mem_singleton,
          false_or, if_neg hold]
        simp
    · simp [hb]

/-- **The nodes after the last pass.** No access of the pass leaves the vectors. -/
theorem fillNodes_filled {N : ℕ} {edges : List (EdgeType K)}
    (hnew : (edges.map Prod.fst).Nodup) (hsites : ∀ e ∈ edges, ∀ a ∈ e.1, a < N) :
    Meets (fillNodes edges
        { nodes := List.replicate N [], edgeSets := List.replicate N [] })
      (fun _ => False) (Filled N (fun a => edges.filter fun e => a ∈ e.1)) := by
  refine meets_foldlM (fun done st => Filled N (fun a => done.filter fun e => a ∈ e.1) st)
    edges ?_ ⟨by simp, by simp⟩
  intro done edge rest hsplit st h
  refine fillEdge_filled h ?_ (hsites edge (by simp [hsplit]))
  rw [hsplit, List.map_append, List.map_cons, List.nodup_append] at hnew
  intro hc
  exact hnew.2.2 _ hc _ (by simp) rfl

/-! ## The constructor -/

theorem mem_siteNames {ls : List (List Str × K)} {x : Str} :
    x ∈ siteNames ls ↔ ∃ l ∈ ls, x ∈ l.1 := by
  rw [siteNames, mem_keepFirst_id, List.mem_flatMap]

theorem nodup_siteNames (ls : List (List Str × K)) : (siteNames ls).Nodup :=
  nodup_keepFirst_id _

theorem siteNumber_lt {names : List Str} {x : Str} (h : x ∈ names) :
    siteNumber names x < names.length :=
  Nat.lt_of_le_of_lt (Nat.mod_le _ _) (List.idxOf_lt_length_of_mem h)

theorem mem_numbered {names : List Str} {l : List Str × K} {a : ℕ} :
    a ∈ (numbered names l).1 ↔ ∃ x ∈ l.1, siteNumber names x = a := by
  rw [numbered, (List.perm_insertionSort _ _).mem_iff, List.mem_map]

theorem sites_lt_of_mem_edgesOf {ls : List (List Str × K)} {e : EdgeType K}
    (he : e ∈ edgesOf ls) {a : ℕ} (ha : a ∈ e.1) : a < (siteNames ls).length := by
  obtain ⟨l, hl, rfl⟩ := List.mem_map.mp (mem_of_mem_keepFirst he)
  obtain ⟨x, hx, rfl⟩ := mem_numbered.mp ha
  exact siteNumber_lt (mem_siteNames.mpr ⟨l, hl, hx⟩)

variable [Field K] [LinearOrder K]

omit [Field K] [LinearOrder K] in
/-- The last pass succeeds on whatever has been read. -/
theorem fillNodes_built {st : ReadState K} {ls : List (List Str × K)} (h : Reads st ls) :
    Meets (fillNodes st.edges
        { nodes := List.replicate st.N [], edgeSets := List.replicate st.N [] })
      (fun _ => False) (fun filled => Built { nodes_ := filled.nodes } ls) := by
  have hedges : st.edges = edgesOf ls := h.edges
  rw [hedges, h.size]
  refine (fillNodes_filled (nodup_map_keepFirst _)
    fun e he a ha => sites_lt_of_mem_edgesOf he ha).mono (fun _ hf => hf) fun filled hf => ?_
  have hsize : (HamiltonianType.mk filled.nodes).size = (siteNames ls).length := by
    rw [HamiltonianType.size, hf.nodes]
    simp
  refine ⟨hsize, ?_, ?_⟩
  · rw [hsize]
    exact hf.nodes
  · rw [hsize]
    exact fun e he a ha => sites_lt_of_mem_edgesOf he ha

/-- **The constructor builds the incidence lists of the file**, whenever it returns;
otherwise `std::stod` threw or a line was too long for the counter. -/
theorem hamiltonianType_built (fuel : ℕ) (stod : Str → Option K) (text : Str) :
    Meets (hamiltonianType fuel stod text) ReadFault
      (fun H => Built H (couplingLines stod text)) := by
  apply (readFile_reads fuel stod text).bind
  intro st hst
  refine ((fillNodes_built hst).mono (fun _ hf => hf.elim) fun _ hf => hf).bind
    fun filled hf => hf

/-! ## Returning -/

/-- Every line that is read ends in a number. -/
def AllNumeric (stod : Str → Option K) (text : Str) : Prop :=
  ∀ line ∈ getlines '\n' text, admitted line = true →
    ((tokens line).getLast?.bind stod).isSome

omit [Field K] [LinearOrder K] in
theorem readSites_returns {fuel : ℕ} {input : List Str} (hne : input ≠ [])
    (hlt : input.length - 1 < 2 ^ 32) (hf : input.length - 1 < fuel) (st : ReadState K) :
    Meets (readSites fuel input st) (fun _ => False) (fun _ => True) := by
  have hlen : 0 < input.length := List.length_pos_iff.mpr hne
  rw [readSites, pred64_of_pos hlen]
  refine meets_forUnsigned_of_lt (fun _ _ => True) hlt hf (fun i p hi _ => ?_) trivial
  rw [readSite, load_of_lt (by omega), ok_bind]
  trivial

theorem readEdge_returns {fuel : ℕ} {stod : Str → Option K} {inputStr : Str}
    (hadm : admitted inputStr = true) (hnum : ((tokens inputStr).getLast?.bind stod).isSome)
    (hshort : ∀ l ∈ couplingLine stod inputStr, l.1.length < 2 ^ 32 ∧ l.1.length < fuel)
    (st : ReadState K) :
    Meets (readEdge fuel stod st inputStr) (fun _ => False) (fun _ => True) := by
  have hne := tokens_ne_nil hadm
  rw [couplingLine, if_pos hadm] at hshort
  rw [List.getLast?_eq_getLast_of_ne_nil hne, Option.bind_some] at hnum hshort
  show Meets (load (tokens inputStr) (pred64 (tokens inputStr).length) >>= _) _ _
  rw [load_last hne, ok_bind]
  cases hval : stod ((tokens inputStr).getLast hne) with
  | none => simp [hval] at hnum
  | some val =>
      by_cases hz : val ≠ 0
      · simp only [hval, if_pos hz, Option.mem_def, Option.some.injEq, forall_eq',
          List.length_dropLast] at hshort
        simp only [if_pos hz]
        exact (readSites_returns hne hshort.1 hshort.2 st).bind fun _ _ => trivial
      · simp only [if_neg hz]
        trivial

/-- **The constructor returns** on a file of numeric lines whose lengths its counter
and its fuel can hold. -/
theorem hamiltonianType_returns {fuel : ℕ} {stod : Str → Option K} {text : Str}
    (hnum : AllNumeric stod text)
    (hshort : ∀ l ∈ couplingLines stod text, l.1.length < 2 ^ 32 ∧ l.1.length < fuel) :
    ∃ st H, readFile fuel stod text = .ok st ∧ hamiltonianType fuel stod text = .ok H := by
  have hread : Meets (readFile fuel stod text) (fun _ => False) (fun _ => True) := by
    refine meets_foldlM (fun _ _ => True) _ (fun done line rest hsplit st _ => ?_) trivial
    have hline : line ∈ getlines '\n' text := by rw [hsplit]; simp
    rw [readLine]
    refine Meets.bind (Q := fun _ => True) ?_ fun _ _ => trivial
    by_cases hadm : admitted line = true
    · rw [if_pos hadm]
      exact readEdge_returns hadm (hnum line hline hadm)
        (fun l hl => hshort l (List.mem_filterMap.mpr ⟨line, hline, hl⟩)) st
    · rw [if_neg hadm]
      trivial
  obtain ⟨st, hst, -⟩ := hread.exists_ok
  obtain ⟨filled, hfilled, -⟩ :=
    (fillNodes_built ((readFile_reads fuel stod text).of_ok hst)).exists_ok
  exact ⟨st, _, hst, by rw [hamiltonianType, hst, ok_bind, hfilled, ok_bind]⟩

end SpinGlass
